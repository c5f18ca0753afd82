import MosqCluster.Foundation.TtlMap
import MosqCluster.Helper.XString

/-!
# The token cache of an application

`xauth/app_info.cpp`. An `AppInfo` hands out an access token and two tickets that it keeps in a
cache of two levels. Here the cache is one map with deadlines, and the remote side answers every
request as it likes: `Remote` fixes the clock readings and the replies of one run. Of a reply, only
what `WxResp` reads of it is kept.

With `force` set a getter fetches. Without it, it gives up where the cache has nothing, and fetches
where the cache has a value: the test is the wrong way round.

## Main definitions

* `getAccessToken`, `getCorpJsapiTicket`, `getAppJsapiTicket`: the getters;
* `cachedOrFetched`: what a getter with a cache in front of it is for;
* `FollowsProtocol`: a sequence of calls each of which does that.

## Main results

* `followsProtocol_iff_nil`: no call without `force` does what the cache is for;
* `getters_of_cache_empty`: from an empty cache, such calls never fetch and return nothing.
-/

namespace MosqCluster.Xauth

/-- What `WxResp` reads of a reply after `Parse`. -/
structure WxResp where
  /-- `WxResp::Get`: the text at a key, empty where there is none. -/
  get : String → Bytes
  /-- `WxResp::GetInt`: the number at a key; the content of an uninitialised variable where there
  is none. -/
  getInt : String → Int32

/-- What the surroundings of a run decide. -/
structure Remote where
  /-- The `n`-th reading of the clock. -/
  clock : Nat → ℤ
  /-- The reply to the `n`-th request, which is for the given URL. -/
  reply : Nat → Bytes → WxResp

/-- The constant fields of `AppInfo` and its `CorpInfo`. -/
structure Config where
  /-- `CorpId()`. -/
  corpId : Bytes
  /-- `secret_`. -/
  secret : Bytes

/-- The state of a run. -/
structure AppInfo where
  /-- `cache1_` and `cache2_`. -/
  cache : TtlMap String Bytes
  /-- How often the clock has been read. -/
  readings : Nat
  /-- The URLs requested so far. -/
  requests : List Bytes

/-- The state before the first call. -/
def AppInfo.initial : AppInfo := ⟨.empty, 0, []⟩

variable (remote : Remote) (config : Config)

/-- `decrement_expires_in`. -/
def decrementExpiresIn (origin value : ℤ) : ℤ := if origin > value then origin - value else origin

/-- `AppInfo::GetParamFromCache`. -/
def AppInfo.getParamFromCache (app : AppInfo) (key : String) : Bytes × AppInfo :=
  ((app.cache.get key (remote.clock app.readings)).getD [],
    { app with readings := app.readings + 1 })

/-- `AppInfo::SetParamToCache`. -/
def AppInfo.setParamToCache (app : AppInfo) (key : String) (data : Bytes) (expiresIn : ℤ) :
    AppInfo :=
  { app with
    cache := app.cache.set key data (remote.clock app.readings) expiresIn
    readings := app.readings + 1 }

/-- `WxApi::Get`, followed by `WxResp::Parse`. -/
def AppInfo.wxApiGet (app : AppInfo) (url : Bytes) : WxResp × AppInfo :=
  (remote.reply app.requests.length (cString url),
    { app with requests := app.requests ++ [cString url] })

/-- The part of a getter after its test of the cache: fetch `url`, take the text at `field` and
store it under `key`. -/
def AppInfo.fetch (app : AppInfo) (url : Bytes) (field key : String) : Bytes × AppInfo :=
  let (resp, app) := app.wxApiGet remote url
  let value := resp.get field
  if value.isEmpty then (value, app)
  else
    (value, app.setParamToCache remote key value
      (decrementExpiresIn (resp.getInt "expires_in").toInt 200))

/-- The common shape of the getters, where `url` makes the URL. -/
def AppInfo.getter (app : AppInfo) (url : AppInfo → Bytes × AppInfo) (field key : String)
    (force : Bool) : Bytes × AppInfo :=
  let fetch (app : AppInfo) : Bytes × AppInfo :=
    let (url, app) := url app
    app.fetch remote url field key
  if force then fetch app
  else
    let (cached, app) := app.getParamFromCache remote key
    if cached.isEmpty then (cached, app) else fetch app

/-- The URL of an access token. -/
def tokenUrl : Bytes :=
  format (bytes "https://qyapi.weixin.qq.com/cgi-bin/gettoken?corpid=" ++ cString config.corpId ++
    bytes "&corpsecret=" ++ cString config.secret)

/-- `AppInfo::GetAccessToken`. -/
def AppInfo.getAccessToken (app : AppInfo) (force : Bool) : Bytes × AppInfo :=
  app.getter remote (fun app => (tokenUrl config, app)) "access_token" "access_token" force

/-- The URL of the ticket of the corporation. -/
def corpTicketUrl (token : Bytes) : Bytes :=
  format (bytes "https://qyapi.weixin.qq.com/cgi-bin/get_jsapi_ticket?access_token=" ++
    cString token)

/-- `AppInfo::GetCorpJsapiTicket`. -/
def AppInfo.getCorpJsapiTicket (app : AppInfo) (force : Bool) : Bytes × AppInfo :=
  app.getter remote (fun app => (app.getAccessToken remote config force).map corpTicketUrl id)
    "ticket" "corp_jsapi_ticket" force

/-- The URL of the ticket of the application. -/
def appTicketUrl (token : Bytes) : Bytes :=
  format (bytes "https://qyapi.weixin.qq.com/cgi-bin/ticket/get?access_token=" ++ cString token ++
    bytes "&type=agent_config")

/-- `AppInfo::GetAppJsapiTicket`. -/
def AppInfo.getAppJsapiTicket (app : AppInfo) (force : Bool) : Bytes × AppInfo :=
  app.getter remote (fun app => (app.getAccessToken remote config force).map appTicketUrl id)
    "ticket" "app_jsapi_ticket" force

/-- The three getters. -/
inductive Getter
  | accessToken
  | corpJsapiTicket
  | appJsapiTicket
  deriving DecidableEq, Repr

/-- A call of a getter with `force` unset. -/
def AppInfo.call (app : AppInfo) : Getter → Bytes × AppInfo
  | .accessToken => app.getAccessToken remote config false
  | .corpJsapiTicket => app.getCorpJsapiTicket remote config false
  | .appJsapiTicket => app.getAppJsapiTicket remote config false

/-! ## What the cache is for -/

/-- A value that is cached is returned without a request; any other is fetched and stored. -/
def AppInfo.cachedOrFetched (app : AppInfo) (url : AppInfo → Bytes × AppInfo)
    (field key : String) : Bytes × AppInfo :=
  let (cached, app) := app.getParamFromCache remote key
  if cached.isEmpty then
    let (url, app) := url app
    app.fetch remote url field key
  else (cached, app)

/-- The access token by that rule. -/
def AppInfo.cachedOrFetchedToken (app : AppInfo) : Bytes × AppInfo :=
  app.cachedOrFetched remote (fun app => (tokenUrl config, app)) "access_token" "access_token"

/-- What a call is for. A ticket is fetched with an access token by the same rule. -/
def AppInfo.intended (app : AppInfo) : Getter → Bytes × AppInfo
  | .accessToken => app.cachedOrFetchedToken remote config
  | .corpJsapiTicket =>
    app.cachedOrFetched remote (fun app => (app.cachedOrFetchedToken remote config).map
      corpTicketUrl id) "ticket" "corp_jsapi_ticket"
  | .appJsapiTicket =>
    app.cachedOrFetched remote (fun app => (app.cachedOrFetchedToken remote config).map
      appTicketUrl id) "ticket" "app_jsapi_ticket"

/-- Every call of the sequence returns what it is for, makes the requests it is for, and leaves the
cache as it should. -/
def AppInfo.FollowsProtocol (app : AppInfo) : List Getter → Prop
  | [] => True
  | g :: gs =>
    let called := app.call remote config g
    let intended := app.intended remote config g
    (called.1 = intended.1 ∧ called.2.requests = intended.2.requests ∧
      called.2.cache = intended.2.cache) ∧ called.2.FollowsProtocol gs

/-- The same for the values that a sequence of calls returns, and the state it leaves. -/
def AppInfo.calls (app : AppInfo) : List Getter → List Bytes × AppInfo
  | [] => ([], app)
  | g :: gs =>
    let (value, app) := app.call remote config g
    let (values, app) := app.calls gs
    (value :: values, app)

/-! ## Requests -/

variable {remote config} {app : AppInfo} {url : AppInfo → Bytes × AppInfo}
  {field key : String} {gs : List Getter}

/-- A fetch makes one request. -/
theorem fetch_requests {url : Bytes} :
    (app.fetch remote url field key).2.requests = app.requests ++ [cString url] := by
  by_cases h : ((app.wxApiGet remote url).1.get field).isEmpty <;>
    simp [AppInfo.fetch, h, AppInfo.setParamToCache] <;> rfl

/-- The computation of a URL keeps the requests made before. -/
def KeepsRequests (url : AppInfo → Bytes × AppInfo) : Prop :=
  ∀ app, app.requests.length ≤ (url app).2.requests.length

/-- Reading the cache makes no request. -/
@[simp]
theorem getParamFromCache_requests :
    (app.getParamFromCache remote key).2.requests = app.requests := rfl

/-- Where nothing is cached, a getter without `force` returns nothing and makes no request. -/
theorem getter_of_not_cached (h : (app.getParamFromCache remote key).1 = []) :
    app.getter remote url field key false = ([], (app.getParamFromCache remote key).2) := by
  simp [AppInfo.getter, h]

/-- Where a value is cached, a getter without `force` makes a request. -/
theorem getter_of_cached (hurl : KeepsRequests url)
    (h : (app.getParamFromCache remote key).1 ≠ []) :
    app.requests.length < (app.getter remote url field key false).2.requests.length := by
  have := hurl (app.getParamFromCache remote key).2
  simp only [AppInfo.getter, List.isEmpty_iff, h, fetch_requests, List.length_append,
    Bool.false_eq_true, if_false]
  exact Nat.lt_succ_of_le this

/-- A getter without `force` keeps the requests made before. -/
theorem getter_keepsRequests (hurl : KeepsRequests url) :
    KeepsRequests fun app => app.getter remote url field key false := by
  intro app
  by_cases h : (app.getParamFromCache remote key).1 = []
  · simp [getter_of_not_cached h]
  · exact (getter_of_cached hurl h).le

/-- Where nothing is cached, the rule makes a request. -/
theorem cachedOrFetched_of_not_cached (hurl : KeepsRequests url)
    (h : (app.getParamFromCache remote key).1 = []) :
    app.requests.length < (app.cachedOrFetched remote url field key).2.requests.length := by
  have := hurl (app.getParamFromCache remote key).2
  simp only [AppInfo.cachedOrFetched, h, List.isEmpty_nil, if_true, fetch_requests,
    List.length_append]
  exact Nat.lt_succ_of_le this

/-- Where a value is cached, the rule returns it and makes no request. -/
theorem cachedOrFetched_of_cached (h : (app.getParamFromCache remote key).1 ≠ []) :
    app.cachedOrFetched remote url field key = app.getParamFromCache remote key := by
  simp [AppInfo.cachedOrFetched, List.isEmpty_iff, h]

/-- The rule keeps the requests made before. -/
theorem cachedOrFetched_keepsRequests (hurl : KeepsRequests url) :
    KeepsRequests fun app => app.cachedOrFetched remote url field key := by
  intro app
  by_cases h : (app.getParamFromCache remote key).1 = []
  · exact (cachedOrFetched_of_not_cached hurl h).le
  · simp [cachedOrFetched_of_cached h]

/-- A getter without `force` and the rule never make the same number of requests: the one fetches
exactly where the other does not. -/
theorem getter_requests_ne_cachedOrFetched {url' : AppInfo → Bytes × AppInfo}
    (hurl : KeepsRequests url) (hurl' : KeepsRequests url') :
    (app.getter remote url field key false).2.requests ≠
      (app.cachedOrFetched remote url' field key).2.requests := by
  intro heq
  have hlen := congrArg List.length heq
  by_cases h : (app.getParamFromCache remote key).1 = []
  · have hfetched : app.requests.length <
        (app.cachedOrFetched remote url' field key).2.requests.length :=
      cachedOrFetched_of_not_cached hurl' h
    rw [← hlen, getter_of_not_cached h] at hfetched
    exact Nat.lt_irrefl _ hfetched
  · have hfetched : app.requests.length <
        (app.getter remote url field key false).2.requests.length :=
      getter_of_cached hurl h
    rw [hlen, cachedOrFetched_of_cached h] at hfetched
    exact Nat.lt_irrefl _ hfetched

/-- No call without `force` makes the requests it is for. -/
theorem call_requests_ne_intended (g : Getter) :
    (app.call remote config g).2.requests ≠ (app.intended remote config g).2.requests := by
  have hconst : KeepsRequests fun app => (tokenUrl config, app) := fun _ => Nat.le_refl _
  have htoken : KeepsRequests fun app => app.getAccessToken remote config false :=
    getter_keepsRequests hconst
  have hintended : KeepsRequests fun app => app.cachedOrFetchedToken remote config :=
    cachedOrFetched_keepsRequests hconst
  cases g with
  | accessToken => exact getter_requests_ne_cachedOrFetched hconst hconst
  | corpJsapiTicket => exact getter_requests_ne_cachedOrFetched htoken hintended
  | appJsapiTicket => exact getter_requests_ne_cachedOrFetched htoken hintended

/-! ## The protocol -/

/-- Sequences of calls without `force` follow the protocol only if they are empty: every single call
fails it, whatever is cached, whatever the time is and whatever the remote side answers. -/
theorem followsProtocol_iff_nil (remote : Remote) (config : Config) (app : AppInfo)
    (gs : List Getter) : app.FollowsProtocol remote config gs ↔ gs = [] := by
  cases gs with
  | nil => simp [AppInfo.FollowsProtocol]
  | cons g gs =>
    simp only [AppInfo.FollowsProtocol, reduceCtorEq, iff_false]
    exact fun h => call_requests_ne_intended g h.1.2.1

/-- The first call of `GetAccessToken`, to a remote side that answers with a token, returns
nothing. -/
theorem not_followsProtocol_first_token :
    ¬ AppInfo.initial.FollowsProtocol
      ⟨fun _ => 0, fun _ _ => ⟨fun _ => bytes "token", fun _ => 7200⟩⟩
      ⟨bytes "corp", bytes "secret"⟩ [.accessToken] := by
  rintro ⟨⟨hvalue, -⟩, -⟩
  exact absurd hvalue (by decide)

/-- By the rule, a remote side that answers every request with a token and a ticket is never turned
into an empty string. -/
theorem intended_ne_nil (hanswers : ∀ n url field, (remote.reply n url).get field ≠ [])
    (g : Getter) : (app.intended remote config g).1 ≠ [] := by
  have hrule : ∀ (app : AppInfo) url field key,
      (app.cachedOrFetched remote url field key).1 ≠ [] := by
    intro app url field key
    by_cases h : (app.getParamFromCache remote key).1 = []
    · simp [AppInfo.cachedOrFetched, h, AppInfo.fetch, AppInfo.wxApiGet, List.isEmpty_iff,
        hanswers]
    · rwa [cachedOrFetched_of_cached h]
  cases g <;> exact hrule _ _ _ _

/-- With nothing cached, calls without `force` fetch nothing, store nothing and return nothing, for
ever. -/
theorem getters_of_cache_empty (hempty : app.cache = .empty) (gs : List Getter) :
    (app.calls remote config gs).1 = List.replicate gs.length [] ∧
      (app.calls remote config gs).2.requests = app.requests ∧
      (app.calls remote config gs).2.cache = .empty := by
  have hcall : ∀ (app : AppInfo) g, app.cache = .empty →
      app.call remote config g = ([], { app with readings := app.readings + 1 }) := by
    intro app g hempty
    have hmiss : ∀ key, (app.getParamFromCache remote key).1 = [] := by
      simp [AppInfo.getParamFromCache, hempty]
    cases g <;> simp only [AppInfo.call, AppInfo.getAccessToken, AppInfo.getCorpJsapiTicket,
      AppInfo.getAppJsapiTicket, getter_of_not_cached (hmiss _)] <;> rfl
  induction gs generalizing app with
  | nil => exact ⟨rfl, rfl, hempty⟩
  | cons g gs ih =>
    simp only [AppInfo.calls, hcall app g hempty, List.length_cons, List.replicate_succ,
      List.cons.injEq, true_and]
    exact ih hempty

end MosqCluster.Xauth
