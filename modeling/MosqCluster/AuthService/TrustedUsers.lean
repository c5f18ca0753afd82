import MosqCluster.AuthService.Routes

/-!
# Whom the auth service trusts

An option that the configuration does not have is an empty string. For the name and the password
this makes an empty pair the configured one, and an empty prefix is one of every user name, so that
`RouteCheckUser` accepts every user unless `mosq_trust_prefix` is set. Nothing is said about the
answer for a user where `lock_` of the manager is not `NULL`.

## Main definitions

* `Trusts`: the users that a configuration trusts;
* `AnswersTrusted`: the answer of `RouteCheckUser` is that of `Trusts`;
* `FailsClosed`: no missing option decides about a user.

## Main results

* `answersTrusted_iff`: the answer is right if and only if the body leaves a root with fields, and,
  for the user in them, `lock_` is `NULL` and the configuration fails closed.
-/

namespace MosqCluster

open Json Http

/-- The users that a configuration trusts: the configured pair, where both of its parts are
configured, and every name with the configured prefix. -/
def Trusts (config : Config) (username password : Bytes) : Prop :=
  (config.get (bytes "mosq_trust_username") ≠ [] ∧ config.get (bytes "mosq_trust_password") ≠ [] ∧
      username = config.get (bytes "mosq_trust_username") ∧
      password = config.get (bytes "mosq_trust_password")) ∨
    (config.get (bytes "mosq_trust_prefix") ≠ [] ∧
      config.get (bytes "mosq_trust_prefix") <+: username)

/-- The four string fields of a body. -/
structure CarriesUser (root : Value) (username password : Bytes) : Prop where
  name : ∃ name, root.member? (bytes "name") = some (.string name)
  clientid : ∃ clientid, root.member? (bytes "clientid") = some (.string clientid)
  username : root.member? (bytes "username") = some (.string username)
  password : root.member? (bytes "password") = some (.string password)

/-- The body of a request carries a user. -/
def BodyCarries (reader : Reader) (req : HttpRequest) (username password : Bytes) : Prop :=
  ∃ data, bodyDocument reader req = .ok data ∧ CarriesUser data.root username password

/-- The code of an answer. -/
def HttpResponse.code (resp : HttpResponse) : Option Int32 :=
  (resp.content.bind fun content => content.member? (bytes "code")).bind Value.int?

/-- `RouteCheckUser` returns, with code 0 for a user that the configuration trusts, and with code -1
for every other user and for a body without the four fields. -/
def AnswersTrusted (reader : Reader) (config : Config) (lock : UInt64) (req : HttpRequest)
    (resp : HttpResponse) : Prop :=
  ∃ answered, RouteCheckUser.process reader (service.initializeManager config lock) req resp
      = .ok answered ∧
    ((∃ username password, BodyCarries reader req username password ∧
        Trusts config username password) → answered.code = some 0) ∧
    ((¬ ∃ username password, BodyCarries reader req username password ∧
        Trusts config username password) → answered.code = some (-1))

/-- No missing option decides about a user. -/
structure FailsClosed (config : Config) (username password : Bytes) : Prop where
  /-- Without a prefix, the user has the configured pair, and both of its parts are configured. -/
  prefix_missing : config.get (bytes "mosq_trust_prefix") = [] →
    config.get (bytes "mosq_trust_username") ≠ [] ∧ config.get (bytes "mosq_trust_password") ≠ [] ∧
      username = config.get (bytes "mosq_trust_username") ∧
      password = config.get (bytes "mosq_trust_password")
  /-- Where a part of the pair is not configured, the user does not have the same pair, or has the
  configured prefix. -/
  pair_missing : config.get (bytes "mosq_trust_username") = [] ∨
      config.get (bytes "mosq_trust_password") = [] →
    ¬ (username = config.get (bytes "mosq_trust_username") ∧
        password = config.get (bytes "mosq_trust_password")) ∨
      config.get (bytes "mosq_trust_prefix") <+: username

variable {reader : Reader} {config : Config} {req : HttpRequest} {resp : HttpResponse}
  {root : Value} {username password : Bytes} {data : JsonDocument} {mgr : MosquittoContextManager}

theorem stringField_eq_some {key s : Bytes} :
    stringField root key = some s ↔ root.member? key = some (.string s) := by
  constructor
  · intro h
    obtain ⟨v, hv, hs⟩ := Option.bind_eq_some_iff.mp h
    cases v with
    | string value =>
      obtain rfl := Option.some.inj hs
      exact hv
    | _ => cases hs
  · intro h
    rw [stringField, h]
    rfl

/-- A body carries at most one user. -/
theorem CarriesUser.unique {username' password' : Bytes}
    (h : CarriesUser root username password) (h' : CarriesUser root username' password') :
    username = username' ∧ password = password' := by
  have huser := h.username.symm.trans h'.username
  have hpass := h.password.symm.trans h'.password
  simp only [Option.some.injEq, Value.string.injEq] at huser hpass
  exact ⟨huser, hpass⟩

/-- The user of a body is that of its document. -/
theorem bodyCarries_iff (hbody : bodyDocument reader req = .ok data) :
    BodyCarries reader req username password ↔ CarriesUser data.root username password := by
  constructor
  · rintro ⟨data', hdata, hcarries⟩
    obtain rfl := Except.ok.inj (hbody.symm.trans hdata)
    exact hcarries
  · exact fun hcarries => ⟨data, hbody, hcarries⟩

/-- The manager is asked about the user that a document carries. -/
theorem asksManager_iff :
    RouteCheckUser.asksManager root = true ↔ ∃ username password,
      CarriesUser root username password := by
  simp only [RouteCheckUser.asksManager, Bool.and_eq_true, Option.isSome_iff_exists,
    stringField_eq_some]
  constructor
  · rintro ⟨⟨⟨hname, hclientid⟩, username, husername⟩, password, hpassword⟩
    exact ⟨username, password, hname, hclientid, husername, hpassword⟩
  · rintro ⟨username, password, hname, hclientid, husername, hpassword⟩
    exact ⟨⟨⟨hname, hclientid⟩, username, husername⟩, password, hpassword⟩

/-- What `RouteCheckUser` decides, if it may ask the manager. -/
theorem exists_granted_eq (hroot : data.root.isNullOrObject = true)
    (hlock : (∃ username password, CarriesUser data.root username password) → mgr.lock = 0) :
    ∃ granted, RouteCheckUser.granted mgr data = .ok granted ∧
      (granted = true ↔ ∃ username password, CarriesUser data.root username password ∧
        ((username = mgr.trustUsername ∧ password = mgr.trustPassword) ∨
          mgr.trustPrefix <+: username)) := by
  rw [RouteCheckUser.granted_eq hroot]
  split
  · next name clientid username password hname hclientid husername hpassword =>
    rw [stringField_eq_some] at hname hclientid husername hpassword
    have hcarries : CarriesUser data.root username password :=
      ⟨⟨name, hname⟩, ⟨clientid, hclientid⟩, husername, hpassword⟩
    refine ⟨_, MosquittoContextManager.checkUser_eq (hlock ⟨username, password, hcarries⟩), ?_⟩
    rw [MosquittoContextManager.trusts_iff]
    constructor
    · exact fun h => ⟨username, password, hcarries, h⟩
    · rintro ⟨username', password', hcarries', h⟩
      obtain ⟨rfl, rfl⟩ := hcarries.unique hcarries'
      exact h
  · next hmissing =>
    -- one of the fields is missing, so that the body carries no user
    refine ⟨false, rfl, iff_of_false Bool.false_ne_true ?_⟩
    rintro ⟨username, password, ⟨⟨name, hname⟩, ⟨clientid, hclientid⟩, husername, hpassword⟩, -⟩
    exact hmissing name clientid username password (stringField_eq_some.mpr hname)
      (stringField_eq_some.mpr hclientid) (stringField_eq_some.mpr husername)
      (stringField_eq_some.mpr hpassword)

/-- A configuration fails closed for a user if and only if it accepts the user for no other reason
than its trust. -/
theorem failsClosed_iff :
    FailsClosed config username password ↔
      ((username = config.get (bytes "mosq_trust_username") ∧
            password = config.get (bytes "mosq_trust_password")) ∨
          config.get (bytes "mosq_trust_prefix") <+: username →
        Trusts config username password) := by
  constructor
  · rintro ⟨hpre, hpair⟩ haccepted
    by_cases hp : config.get (bytes "mosq_trust_prefix") = []
    · exact .inl (hpre hp)
    · refine haccepted.elim (fun hsame => ?_) fun h => .inr ⟨hp, h⟩
      -- An empty name or password accepts no one, unless the prefix does.
      by_cases hconf : config.get (bytes "mosq_trust_username") = [] ∨
          config.get (bytes "mosq_trust_password") = []
      · exact (hpair hconf).elim (absurd hsame) fun h => .inr ⟨hp, h⟩
      · rw [not_or] at hconf
        exact .inl ⟨hconf.1, hconf.2, hsame⟩
  · intro h
    refine ⟨fun hp => ?_, fun hconf => ?_⟩
    · -- an empty prefix accepts every user
      exact (h (.inr (by rw [hp]; exact List.nil_prefix))).resolve_right fun h => h.1 hp
    · by_cases hsame : username = config.get (bytes "mosq_trust_username") ∧
          password = config.get (bytes "mosq_trust_password")
      · refine .inr ((h (.inl hsame)).elim (fun htrust => ?_) And.right)
        exact absurd hconf (not_or.mpr ⟨htrust.1, htrust.2.1⟩)
      · exact .inl hsame

/-- Whom a configuration trusts is accepted. -/
theorem Trusts.accepted (h : Trusts config username password) :
    (username = config.get (bytes "mosq_trust_username") ∧
        password = config.get (bytes "mosq_trust_password")) ∨
      config.get (bytes "mosq_trust_prefix") <+: username :=
  h.imp (fun h => h.2.2) And.right

/-- The response of `RouteCheckUser` for a decision. -/
theorem RouteCheckUser.process_of_granted {granted : Bool} (resp : HttpResponse)
    (hbody : bodyDocument reader req = .ok data)
    (h : RouteCheckUser.granted mgr data = .ok granted) :
    ∃ answered, RouteCheckUser.process reader mgr req resp = .ok answered ∧
      answered.code = some (if granted then 0 else -1) := by
  have hanswer : process reader mgr req resp = answer granted (MosqAuthRouteProc.process resp) := by
    rw [process, hbody]
    change (RouteCheckUser.granted mgr data >>= _) = _
    rw [h]
    rfl
  refine ⟨_, hanswer.trans (answer_eq granted _), ?_⟩
  cases granted <;> rfl

/-- The answer is right if and only if the body leaves a root with fields, and, for the user in
them, `lock_` is `NULL` and the configuration fails closed. -/
theorem answersTrusted_iff (reader : Reader) (config : Config) (lock : UInt64) (req : HttpRequest)
    (resp : HttpResponse) :
    AnswersTrusted reader config lock req resp ↔
      JsonDocument.LeavesFields reader (cString req.body) ∧
        ∀ username password, BodyCarries reader req username password →
          lock = 0 ∧ FailsClosed config username password := by
  by_cases hanswerable : Answerable reader (service.initializeManager config lock) req
      RouteCheckUser.asksManager
  swap
  · refine iff_of_false ?_ fun ⟨⟨data, hbody, hroot⟩, hall⟩ => hanswerable ?_
    · rintro ⟨answered, hprocess, -⟩
      have hok : (RouteCheckUser.process reader (service.initializeManager config lock) req
          resp).isOk := by
        rw [hprocess]
        rfl
      exact hanswerable (RouteCheckUser.process_isOk_iff.mp hok)
    · refine ⟨data, hbody, hroot, fun hasks => ?_⟩
      obtain ⟨username, password, hcarries⟩ := asksManager_iff.mp hasks
      exact (hall username password ((bodyCarries_iff hbody).mpr hcarries)).1
  obtain ⟨data, hbody, hroot, hlock⟩ := hanswerable
  rw [asksManager_iff] at hlock
  obtain ⟨granted, hgranted, hiff⟩ := exists_granted_eq hroot hlock
  obtain ⟨answered, hprocess, hcode⟩ := RouteCheckUser.process_of_granted resp hbody hgranted
  have hfields : JsonDocument.LeavesFields reader (cString req.body) := ⟨data, hbody, hroot⟩
  rw [and_iff_right hfields]
  simp only [AnswersTrusted, bodyCarries_iff hbody]
  constructor
  · rintro ⟨answered', hprocess', htrusted, huntrusted⟩ username password hcarries
    refine ⟨hlock ⟨username, password, hcarries⟩, failsClosed_iff.mpr fun haccepted => ?_⟩
    obtain rfl := Except.ok.inj (hprocess.symm.trans hprocess')
    by_contra hnot
    -- the user is accepted, and the only user of the body is not trusted
    have hdenied := huntrusted fun ⟨username', password', hcarries', htrust⟩ => by
      obtain ⟨rfl, rfl⟩ := hcarries.unique hcarries'
      exact hnot htrust
    rw [hcode, hiff.mpr ⟨username, password, hcarries, haccepted⟩] at hdenied
    exact absurd hdenied (by decide)
  · intro hclosed
    refine ⟨answered, hprocess, ?_, fun hnot => ?_⟩
    · rintro ⟨username, password, hcarries, htrust⟩
      rw [hcode, hiff.mpr ⟨username, password, hcarries, htrust.accepted⟩]
      rfl
    · have hrefused : granted = false := by
        refine Bool.eq_false_iff.mpr fun hgranted => hnot ?_
        obtain ⟨username, password, hcarries, haccepted⟩ := hiff.mp hgranted
        exact ⟨username, password, hcarries,
          failsClosed_iff.mp (hclosed username password hcarries).2 haccepted⟩
      rw [hcode, hrefused]
      rfl

/-- Without any configuration, every user is accepted, even if `lock_` is `NULL`. -/
theorem not_answersTrusted_no_config : ¬ ∀ (reader : Reader) (config : Config) (lock : UInt64)
    (req : HttpRequest) (resp : HttpResponse),
    lock = 0 → AnswersTrusted reader config lock req resp := by
  intro h
  -- the body of the request of a user `u` with the password `p`
  let text := bytes ("\x7b\"name\":\"n\",\"clientid\":\"c\"," ++
    "\"username\":\"u\",\"password\":\"p\"\x7d")
  let root : Value := .object [(bytes "clientid", .string (bytes "c")),
    (bytes "name", .string (bytes "n")), (bytes "password", .string (bytes "p")),
    (bytes "username", .string (bytes "u"))]
  let req : HttpRequest := { HttpRequest.fresh with body := text }
  have hbody : bodyDocument (.only text root) req = .ok ⟨root⟩ := by
    rw [bodyDocument, show req.body = text from rfl, cString_of_not_mem (by decide),
      JsonDocument.ofText_only (by decide) (by decide)]
  obtain ⟨answered, hprocess, -, huntrusted⟩ := h (.only text root) .new 0 req .new rfl
  have hnot : ∀ username password, ¬ Trusts .new username password := by
    rintro username password (h | h)
    · exact h.1 (conf.Value.get_empty _)
    · exact h.1 (conf.Value.get_empty _)
  have hdenied := huntrusted fun ⟨username, password, _, htrust⟩ => hnot username password htrust
  -- the empty prefix is one of `u`
  have hgranted : RouteCheckUser.granted (service.initializeManager .new 0) ⟨root⟩ = .ok true := by
    rw [RouteCheckUser.granted_eq rfl]
    refine (MosquittoContextManager.checkUser_eq rfl).trans (congrArg Except.ok ?_)
    refine MosquittoContextManager.trusts_iff.mpr (.inr ?_)
    rw [show (service.initializeManager .new 0).trustPrefix = [] from conf.Value.get_empty _]
    exact List.nil_prefix
  obtain ⟨answered', hprocess', hcode⟩ := RouteCheckUser.process_of_granted .new hbody hgranted
  obtain rfl := Except.ok.inj (hprocess.symm.trans hprocess')
  rw [hcode] at hdenied
  exact absurd hdenied (by decide)

end MosqCluster
