import MosqCluster.Helper.Config

/-!
# The applications of the corps

`app::Initialize` of `xauth/global.cpp`, over `xauth/corp_info.cpp` and `xauth/app_info.cpp`. The
configuration numbers the corps, and the applications of a corp, from 1 to 128. An application gets
its identifier and its secret where its name is registered, and what is there already stays; its
parameters are set in any case, and the last ones stay.

## Main definitions

* `app.appInitialize`, with `CorpInfo.createApplication` and `CorpInfo.setAppParam`;
* `app.Unmixed`: the credentials of an application come from one index, and stay as they are.

## Main results

* `app.getApp_addApplication`: what an index does to the applications;
* `app.Holds.addApplications`: which indices the credentials come from;
* `app.unmixed_iff`: when they are not mixed.
-/

namespace MosqCluster.Xauth.app

/-- `AppInfo`, without its caches. -/
structure AppInfo where
  appid_ : Bytes
  secret_ : Bytes
  params_ : OrderedMap Bytes Bytes

/-- `CorpInfo`. -/
structure CorpInfo where
  corp_id_ : Bytes
  apps_ : OrderedMap Bytes AppInfo

/-- `AppInfo::AppInfo`. -/
def AppInfo.new (appid secret : Bytes) : AppInfo := ⟨appid, secret, []⟩

/-- `AppInfo::SetAppParam`. -/
def AppInfo.setAppParam (app : AppInfo) (key value : Bytes) : AppInfo :=
  { app with params_ := app.params_.insert key value }

/-- `AppInfo::GetAppParam`. -/
def AppInfo.getAppParam (app : AppInfo) (key : Bytes) : Bytes := (app.params_.find? key).getD []

namespace CorpInfo

/-- `CorpInfo::CorpInfo`. -/
def new (corpid : Bytes) : CorpInfo := ⟨corpid, []⟩

/-- `GetApp`. -/
def getApp (corp : CorpInfo) (name : Bytes) : Option AppInfo := corp.apps_.find? name

/-- `CorpInfo::SetAppParam`. -/
def setAppParam (corp : CorpInfo) (app key value : Bytes) : CorpInfo :=
  match corp.getApp app with
  | some info => { corp with apps_ := corp.apps_.insert app (info.setAppParam key value) }
  | none => corp

/-- `CreateApplication`. -/
def createApplication (corp : CorpInfo) (name appid secret : Bytes) : CorpInfo × Bool :=
  match corp.apps_.find? name with
  | some _ => (corp, false)
  | none => ({ corp with apps_ := corp.apps_.insert name (.new appid secret) }, true)

end CorpInfo

/-- `global::Manager`. -/
abbrev Manager := OrderedMap Bytes CorpInfo

/-- `kMaxSize`. -/
def kMaxSize : Nat := 128

/-- The key of a corp. -/
def corpKey (index : Nat) (suffix : String) : Bytes :=
  format (bytes "CorpInfo." ++ bytes (toString index) ++ bytes suffix)

/-- The key of an application of a corp. -/
def appKey (corp_name : Bytes) (index : Nat) (suffix : String) : Bytes :=
  format (cString corp_name ++ bytes "." ++ bytes (toString index) ++ bytes suffix)

section Config

variable (config : conf.Value)

/-- The name and the identifier of the corp that comes after `i` others. -/
def corpEntry (i : Nat) : Bytes × Bytes :=
  let index := i + 1
  (config.get (corpKey index "_name"), config.get (corpKey index "_corpid"))

/-- The first loop of `Initialize`, from a turn on, for as many turns as are left. -/
def addCorps : Nat → Nat → Manager → Manager
  | 0, _, manager => manager
  | turns + 1, i, manager =>
    let (corp_name, corp_id) := corpEntry config i
    -- the first index without a name or an identifier ends the loop
    if corp_name.isEmpty || corp_id.isEmpty then manager
    else addCorps turns (i + 1) (manager.insert corp_name (.new corp_id))

/-- What the configuration has for an index of a corp. -/
structure AppEntry where
  name : Bytes
  appid : Bytes
  secret : Bytes
  token : Bytes
  aeskey : Bytes
  deriving DecidableEq

/-- What is read for the application of a corp that comes after `j` others. -/
def appEntry (corp_name : Bytes) (j : Nat) : AppEntry :=
  let index := j + 1
  { name := config.get (appKey corp_name index "_name")
    appid := config.get (appKey corp_name index "_appid")
    secret := config.get (appKey corp_name index "_secret")
    token := config.get (appKey corp_name index "_callback_token")
    aeskey := config.get (appKey corp_name index "_callback_aeskey") }

/-- What is done with it. -/
def addApplication (corp : CorpInfo) (e : AppEntry) : CorpInfo :=
  -- what `CreateApplication` returns is not looked at
  let (corp, _) := corp.createApplication e.name e.appid e.secret
  let corp := corp.setAppParam e.name (bytes "callback_token") e.token
  corp.setAppParam e.name (bytes "callback_aeskey") e.aeskey

/-- The second loop of `Initialize` for a corp, after a number of turns. -/
def addApplications (corp_name : Bytes) (corp : CorpInfo) : Nat → CorpInfo
  | 0 => corp
  | j + 1 => addApplication (addApplications corp_name corp j) (appEntry config corp_name j)

/-- The corps before the second loop. -/
def corps : Manager := addCorps config kMaxSize 0 []

/-- `Initialize`: the manager after it. -/
def appInitialize : Manager :=
  (corps config).map fun p => (p.1, addApplications config p.1 p.2 kMaxSize)

end Config

/-- The credentials of an application are those of an index. -/
structure AppInfo.HasCredentials (app : AppInfo) (e : AppEntry) : Prop where
  appid : app.appid_ = e.appid
  secret : app.secret_ = e.secret
  token : app.getAppParam (bytes "callback_token") = e.token
  aeskey : app.getAppParam (bytes "callback_aeskey") = e.aeskey

/-- Two applications have the same identifier, secret and parameters. -/
structure AppInfo.Same (app app' : AppInfo) : Prop where
  appid : app'.appid_ = app.appid_
  secret : app'.secret_ = app.secret_
  params : ∀ key, app'.getAppParam key = app.getAppParam key

/-- The credentials of every application come from one index of its corp, and a turn in which
`CreateApplication` returns `false` leaves the application as it is. -/
structure Unmixed (config : conf.Value) : Prop where
  credentials : ∀ corp_name corp, (appInitialize config).find? corp_name = some corp →
    ∀ app_name app, corp.getApp app_name = some app →
      ∃ j < kMaxSize, (appEntry config corp_name j).name = app_name ∧
        app.HasCredentials (appEntry config corp_name j)
  unchanged : ∀ corp_name corp, (corps config).find? corp_name = some corp →
    ∀ j < kMaxSize, ∀ before after e,
      before = addApplications config corp_name corp j →
      e = appEntry config corp_name j →
      after = addApplication before e →
      (before.createApplication e.name e.appid e.secret).2 = false →
        ∃ app app', before.getApp e.name = some app ∧ after.getApp e.name = some app' ∧
          app.Same app'

/-- The configuration has a name and an identifier for a corp. -/
def HasCorp (config : conf.Value) (i : Nat) : Prop :=
  (corpEntry config i).1 ≠ [] ∧ (corpEntry config i).2 ≠ []

/-- The corp is among those that the configuration numbers without a gap. -/
def Registered (config : conf.Value) (corp_name : Bytes) : Prop :=
  ∃ i < kMaxSize, (corpEntry config i).1 = corp_name ∧ ∀ i' ≤ i, HasCorp config i'

/-- Indices of a registered corp with one application name have one token and one key. -/
def ParamsAgree (config : conf.Value) : Prop :=
  ∀ corp_name, Registered config corp_name → ∀ j < kMaxSize, ∀ j' < kMaxSize,
    (appEntry config corp_name j).name = (appEntry config corp_name j').name →
      (appEntry config corp_name j).token = (appEntry config corp_name j').token ∧
        (appEntry config corp_name j).aeskey = (appEntry config corp_name j').aeskey

/-! ## What an index does to the applications -/

section Entry

variable {corp : CorpInfo} {e : AppEntry} {name : Bytes}

theorem getApp_setAppParam (corp : CorpInfo) (app key value name : Bytes) :
    (corp.setAppParam app key value).getApp name =
      if name = app then (corp.getApp app).map (·.setAppParam key value) else corp.getApp name := by
  rw [CorpInfo.setAppParam]
  split
  · next info hinfo =>
    rw [CorpInfo.getApp]
    split_ifs with hname
    · rw [hname, OrderedMap.find?_insert_self, hinfo, Option.map_some]
    · exact OrderedMap.find?_insert_of_ne hname
  · next hnone =>
    split_ifs with hname
    · rw [hname, hnone, Option.map_none]
    · rfl

theorem getApp_createApplication (corp : CorpInfo) (app appid secret name : Bytes) :
    (corp.createApplication app appid secret).1.getApp name =
      if name = app then some ((corp.getApp app).getD (.new appid secret))
      else corp.getApp name := by
  rw [CorpInfo.createApplication, CorpInfo.getApp]
  split
  · next info hinfo =>
    split_ifs with hname
    · rw [hname, CorpInfo.getApp, hinfo, Option.getD_some]
    · rfl
  · next hnone =>
    split_ifs with hname
    · rw [hname, OrderedMap.find?_insert_self, CorpInfo.getApp, hnone, Option.getD_none]
    · exact OrderedMap.find?_insert_of_ne hname

/-- `CreateApplication` returns `false` where the name is registered. -/
theorem createApplication_eq_false_iff (corp : CorpInfo) (name appid secret : Bytes) :
    (corp.createApplication name appid secret).2 = false ↔ ∃ app, corp.getApp name = some app := by
  rw [CorpInfo.createApplication, CorpInfo.getApp]
  split
  · next info hinfo => exact iff_of_true rfl ⟨info, hinfo⟩
  · next hnone =>
    refine iff_of_false (by simp) ?_
    rintro ⟨app, happ⟩
    rw [hnone] at happ
    simp at happ

/-- An application with the parameters of an index. -/
def AppInfo.withParams (app : AppInfo) (e : AppEntry) : AppInfo :=
  (app.setAppParam (bytes "callback_token") e.token).setAppParam (bytes "callback_aeskey") e.aeskey

/-- An index registers its application where the name is new, and sets the parameters. -/
theorem getApp_addApplication (corp : CorpInfo) (e : AppEntry) (name : Bytes) :
    (addApplication corp e).getApp name =
      if name = e.name then some (((corp.getApp e.name).getD (.new e.appid e.secret)).withParams e)
      else corp.getApp name := by
  rw [addApplication]
  simp only [getApp_setAppParam, getApp_createApplication, if_true]
  split_ifs with hname
  · rfl
  · rfl

theorem getAppParam_setAppParam (app : AppInfo) (key value key' : Bytes) :
    (app.setAppParam key value).getAppParam key' =
      if key' = key then value else app.getAppParam key' := by
  rw [AppInfo.getAppParam, AppInfo.setAppParam]
  split_ifs with hkey
  · rw [hkey, OrderedMap.find?_insert_self, Option.getD_some]
  · rw [OrderedMap.find?_insert_of_ne hkey, AppInfo.getAppParam]

theorem getAppParam_withParams (app : AppInfo) (e : AppEntry) (key : Bytes) :
    (app.withParams e).getAppParam key =
      if key = bytes "callback_aeskey" then e.aeskey
      else if key = bytes "callback_token" then e.token
      else app.getAppParam key := by
  rw [AppInfo.withParams, getAppParam_setAppParam, getAppParam_setAppParam]

end Entry

/-! ## The indices that the credentials come from -/

section Indices

variable {entries : Nat → AppEntry} {name : Bytes} {app : AppInfo} {i j : Nat}

/-- The identifier and the secret are those of the first index with the name, the parameters those
of the last one. -/
structure FirstAndLast (entries : Nat → AppEntry) (j : Nat) (name : Bytes) (app : AppInfo) :
    Prop where
  first : ∃ i < j, (entries i).name = name ∧ (∀ i' < i, (entries i').name ≠ name) ∧
    app.appid_ = (entries i).appid ∧ app.secret_ = (entries i).secret
  last : ∃ i < j, (entries i).name = name ∧ (∀ i' < j, i < i' → (entries i').name ≠ name) ∧
    app.getAppParam (bytes "callback_token") = (entries i).token ∧
    app.getAppParam (bytes "callback_aeskey") = (entries i).aeskey

/-- The applications of a corp after a number of indices. -/
def Holds (entries : Nat → AppEntry) (j : Nat) (corp : CorpInfo) : Prop :=
  ∀ name, (corp.getApp name = none ∧ ∀ i < j, (entries i).name ≠ name) ∨
    ∃ app, corp.getApp name = some app ∧ FirstAndLast entries j name app

theorem holds_new (corpid : Bytes) : Holds entries 0 (.new corpid) :=
  fun _ => .inl ⟨rfl, fun i hi => absurd hi (Nat.not_lt_zero i)⟩

theorem withParams_params (app : AppInfo) (e : AppEntry) :
    (app.withParams e).getAppParam (bytes "callback_token") = e.token ∧
      (app.withParams e).getAppParam (bytes "callback_aeskey") = e.aeskey := by
  constructor
  · rw [getAppParam_withParams, if_neg (by decide), if_pos rfl]
  · rw [getAppParam_withParams, if_pos rfl]

/-- One more index. -/
theorem Holds.addApplication {corp : CorpInfo} (h : Holds entries j corp) :
    Holds entries (j + 1) (addApplication corp (entries j)) := by
  intro name
  rw [getApp_addApplication]
  split_ifs with hname
  · -- the parameters are those of this index, the rest those of the first one
    refine .inr ⟨_, rfl, ?_, j, Nat.lt_succ_self j, hname.symm, ?_,
      (withParams_params _ (entries j)).1, (withParams_params _ (entries j)).2⟩
    · rcases h (entries j).name with ⟨hnone, hnew⟩ | ⟨app, happ, ⟨i, hi, hfirst⟩, -⟩
      · refine ⟨j, Nat.lt_succ_self j, hname.symm, fun i hi => hname ▸ hnew i hi, ?_⟩
        rw [hnone]
        exact ⟨rfl, rfl⟩
      · rw [happ, hname]
        exact ⟨i, Nat.lt_succ_of_lt hi, hfirst⟩
    · intro i hi hlt
      omega
  · rcases h name with ⟨hnone, hnew⟩ | ⟨app, happ, ⟨i, hi, hfirst⟩, ⟨l, hl, hlname, hlast, hparams⟩⟩
    · refine .inl ⟨hnone, fun i hi => ?_⟩
      rcases Nat.lt_succ_iff_lt_or_eq.mp hi with hlt | rfl
      · exact hnew i hlt
      · exact Ne.symm hname
    · refine .inr ⟨app, happ, ⟨i, Nat.lt_succ_of_lt hi, hfirst⟩,
        ⟨l, Nat.lt_succ_of_lt hl, hlname, fun i hi hlt => ?_, hparams⟩⟩
      rcases Nat.lt_succ_iff_lt_or_eq.mp hi with hlt' | rfl
      · exact hlast i hlt' hlt
      · exact Ne.symm hname

end Indices

/-! ## The corps -/

section Corps

variable {config : conf.Value} {corp_name : Bytes} {corp : CorpInfo} {j : Nat}

/-- A turn that adds a corp. -/
theorem addCorps_of_hasCorp {i : Nat} (h : HasCorp config i) (turns : Nat) (manager : Manager) :
    addCorps config (turns + 1) i manager =
      addCorps config turns (i + 1)
        (manager.insert (corpEntry config i).1 (.new (corpEntry config i).2)) := by
  rw [addCorps]
  exact if_neg (by simpa [HasCorp, corpEntry] using h)

/-- A gap. -/
theorem addCorps_of_gap {i : Nat} (h : ¬ HasCorp config i) (turns : Nat) (manager : Manager) :
    addCorps config turns i manager = manager := by
  cases turns with
  | zero => rfl
  | succ turns =>
    rw [addCorps]
    refine if_pos ?_
    rw [Bool.or_eq_true, List.isEmpty_iff, List.isEmpty_iff]
    by_contra hne
    exact h (not_or.mp hne)

/-- A corp has no applications before the second loop. -/
theorem eq_new_of_addCorps {turns i : Nat} {manager : Manager}
    (h : (addCorps config turns i manager).find? corp_name = some corp) :
    manager.find? corp_name = some corp ∨ ∃ corp_id, corp = .new corp_id := by
  induction turns generalizing i manager with
  | zero => exact .inl h
  | succ turns ih =>
    by_cases hcorp : HasCorp config i
    · rw [addCorps_of_hasCorp hcorp] at h
      rcases ih h with hfind | hnew
      · by_cases hname : corp_name = (corpEntry config i).1
        · rw [hname, OrderedMap.find?_insert_self] at hfind
          exact .inr ⟨_, (Option.some.inj hfind).symm⟩
        · rw [OrderedMap.find?_insert_of_ne hname] at hfind
          exact .inl hfind
      · exact .inr hnew
    · rw [addCorps_of_gap hcorp] at h
      exact .inl h

/-- The names that are found are those up to the first gap. -/
theorem isSome_addCorps {turns i : Nat} {manager : Manager} :
    ((addCorps config turns i manager).find? corp_name).isSome ↔
      (manager.find? corp_name).isSome ∨ ∃ k < turns, (corpEntry config (i + k)).1 = corp_name ∧
        ∀ k' ≤ k, HasCorp config (i + k') := by
  induction turns generalizing i manager with
  | zero => simp [addCorps]
  | succ turns ih =>
    by_cases hcorp : HasCorp config i
    · rw [addCorps_of_hasCorp hcorp, ih, OrderedMap.isSome_find?_insert, or_assoc]
      refine or_congr_right ?_
      -- the corp of this turn is at the distance 0, and those behind it are one turn nearer
      constructor
      · rintro (hname | ⟨k, hk, hname, hcorps⟩)
        · exact ⟨0, by omega, hname, fun k' hk' => (Nat.le_zero.mp hk') ▸ hcorp⟩
        · refine ⟨k + 1, by omega, by rwa [Nat.add_right_comm, Nat.add_assoc] at hname, ?_⟩
          intro k' hk'
          cases k' with
          | zero => exact hcorp
          | succ k' =>
            have := hcorps k' (by omega)
            rwa [Nat.add_right_comm, Nat.add_assoc] at this
      · rintro ⟨k, hk, hname, hcorps⟩
        cases k with
        | zero => exact .inl hname
        | succ k =>
          refine .inr ⟨k, by omega, by rwa [Nat.add_right_comm, Nat.add_assoc], fun k' hk' => ?_⟩
          have := hcorps (k' + 1) (by omega)
          rwa [Nat.add_right_comm, Nat.add_assoc]
    · rw [addCorps_of_gap hcorp, iff_comm, or_iff_left_iff_imp]
      rintro ⟨k, -, -, hcorps⟩
      exact absurd (hcorps 0 (Nat.zero_le k)) hcorp

theorem eq_new_of_corps (h : (corps config).find? corp_name = some corp) :
    ∃ corp_id, corp = .new corp_id :=
  (eq_new_of_addCorps h).resolve_left (by simp [OrderedMap.find?])

/-- The corps are those that the configuration numbers without a gap. -/
theorem registered_iff :
    Registered config corp_name ↔ ∃ corp, (corps config).find? corp_name = some corp := by
  rw [← Option.isSome_iff_exists, corps, isSome_addCorps, or_iff_right (by simp [OrderedMap.find?])]
  simp only [Nat.zero_add, Registered]

/-- Which indices the credentials of the applications come from. -/
theorem Holds.addApplications (h : (corps config).find? corp_name = some corp) (j : Nat) :
    Holds (appEntry config corp_name) j (addApplications config corp_name corp j) := by
  obtain ⟨corp_id, rfl⟩ := eq_new_of_corps h
  induction j with
  | zero => exact holds_new corp_id
  | succ j ih => exact ih.addApplication

/-- The corps after `Initialize`. -/
theorem find?_appInitialize (config : conf.Value) (corp_name : Bytes) :
    (appInitialize config).find? corp_name =
      ((corps config).find? corp_name).map (addApplications config corp_name · kMaxSize) :=
  OrderedMap.find?_map (fun corp_name corp => addApplications config corp_name corp kMaxSize) _ _

/-! ## When credentials are not mixed -/

/-- A turn that leaves an application as it is sets what is there: the parameters of the last index
with its name. -/
theorem Unmixed.agree_last (hunmixed : Unmixed config) (hcorp : Registered config corp_name)
    (hj : j < kMaxSize) {i : Nat} (hi : i < j)
    (hname : (appEntry config corp_name i).name = (appEntry config corp_name j).name) :
    ∃ l < j, (appEntry config corp_name l).name = (appEntry config corp_name j).name ∧ i ≤ l ∧
      (appEntry config corp_name l).token = (appEntry config corp_name j).token ∧
      (appEntry config corp_name l).aeskey = (appEntry config corp_name j).aeskey := by
  obtain ⟨corp, hfind⟩ := registered_iff.mp hcorp
  have hholds := Holds.addApplications hfind j (appEntry config corp_name j).name
  rcases hholds with ⟨-, hnew⟩ | ⟨app, happ, -, l, hl, hlname, hlast, htoken, haeskey⟩
  · exact absurd hname (hnew i hi)
  · have hle : i ≤ l := Nat.le_of_not_lt fun hlt => hlast i hi hlt hname
    obtain ⟨app₁, app₂, happ₁, happ₂, hsame⟩ := hunmixed.unchanged corp_name corp hfind j hj _ _ _
      rfl rfl rfl ((createApplication_eq_false_iff ..).mpr ⟨app, happ⟩)
    obtain rfl := Option.some.inj (happ.symm.trans happ₁)
    rw [getApp_addApplication, if_pos rfl, happ, Option.getD_some] at happ₂
    obtain rfl := Option.some.inj happ₂
    have hparams := withParams_params app (appEntry config corp_name j)
    rw [hsame.params, hsame.params, htoken, haeskey] at hparams
    exact ⟨l, hl, hlname, hle, hparams⟩

/-- Where no turn changes an application, indices with one name have the same parameters. -/
theorem Unmixed.paramsAgree (hunmixed : Unmixed config) : ParamsAgree config := by
  intro corp_name hcorp
  suffices h : ∀ j < kMaxSize, ∀ i < j,
      (appEntry config corp_name i).name = (appEntry config corp_name j).name →
        (appEntry config corp_name i).token = (appEntry config corp_name j).token ∧
          (appEntry config corp_name i).aeskey = (appEntry config corp_name j).aeskey by
    intro j hj j' hj' hname
    rcases Nat.lt_trichotomy j j' with hlt | rfl | hlt
    · exact h j' hj' j hlt hname
    · exact ⟨rfl, rfl⟩
    · have := h j hj j' hlt hname.symm
      exact ⟨this.1.symm, this.2.symm⟩
  intro j
  induction j using Nat.strongRecOn with
  | _ j ih =>
    intro hj i hi hname
    obtain ⟨l, hl, hlname, hle, htoken, haeskey⟩ := hunmixed.agree_last hcorp hj hi hname
    rcases Nat.lt_or_eq_of_le hle with hlt | rfl
    · -- the index before this one agrees with the earlier ones
      have hearlier := ih l hl (Nat.lt_trans hl hj) i hlt (hname.trans hlname.symm)
      exact ⟨hearlier.1.trans htoken, hearlier.2.trans haeskey⟩
    · exact ⟨htoken, haeskey⟩

/-- Where indices with one name have the same parameters, the credentials come from the first index
with the name. -/
theorem ParamsAgree.hasCredentials (hagree : ParamsAgree config)
    (hcorp : Registered config corp_name) (hj : j ≤ kMaxSize) {name : Bytes} {app : AppInfo}
    (h : FirstAndLast (appEntry config corp_name) j name app) :
    ∃ i < j, (appEntry config corp_name i).name = name ∧
      app.HasCredentials (appEntry config corp_name i) := by
  obtain ⟨⟨i, hi, hname, -, happid, hsecret⟩, l, hl, hlname, -, htoken, haeskey⟩ := h
  obtain ⟨htoken', haeskey'⟩ := hagree corp_name hcorp i (by omega) l (by omega)
    (hname.trans hlname.symm)
  exact ⟨i, hi, hname, happid, hsecret, htoken.trans htoken'.symm, haeskey.trans haeskey'.symm⟩

/-- And no turn changes an application. -/
theorem ParamsAgree.same (hagree : ParamsAgree config) (hcorp : Registered config corp_name)
    (hj : j < kMaxSize) {app : AppInfo}
    (h : FirstAndLast (appEntry config corp_name) j (appEntry config corp_name j).name app) :
    app.Same (app.withParams (appEntry config corp_name j)) := by
  obtain ⟨i, hi, hname, hcredentials⟩ := hagree.hasCredentials hcorp (Nat.le_of_lt hj) h
  obtain ⟨htoken, haeskey⟩ := hagree corp_name hcorp i (by omega) j hj hname
  refine ⟨rfl, rfl, fun key => ?_⟩
  rw [getAppParam_withParams]
  split_ifs with haes htok
  · rw [haes, hcredentials.aeskey, haeskey]
  · rw [htok, hcredentials.token, htoken]
  · rfl

/-- The credentials of the applications are not mixed, if and only if the indices of a corp with one
application name have the same callback token and the same callback key. -/
theorem unmixed_iff (config : conf.Value) : Unmixed config ↔ ParamsAgree config := by
  refine ⟨Unmixed.paramsAgree, fun hagree => ⟨?_, ?_⟩⟩
  · intro corp_name corp' hcorp' app_name app happ
    rw [find?_appInitialize, Option.map_eq_some_iff] at hcorp'
    obtain ⟨corp, hfind, rfl⟩ := hcorp'
    rcases Holds.addApplications hfind kMaxSize app_name with ⟨hnone, -⟩ | ⟨app', happ', hfirst⟩
    · rw [happ] at hnone
      simp at hnone
    · obtain rfl := Option.some.inj (happ.symm.trans happ')
      exact hagree.hasCredentials (registered_iff.mpr ⟨corp, hfind⟩) (Nat.le_refl _) hfirst
  · rintro corp_name corp hfind j hj before after e rfl rfl rfl hfalse
    obtain ⟨app, happ⟩ := (createApplication_eq_false_iff ..).mp hfalse
    refine ⟨app, app.withParams (appEntry config corp_name j), happ, ?_, ?_⟩
    · rw [getApp_addApplication, if_pos rfl, happ, Option.getD_some]
    · rcases Holds.addApplications hfind j (appEntry config corp_name j).name with
        ⟨hnone, -⟩ | ⟨app', happ', hfirst⟩
      · rw [happ] at hnone
        simp at hnone
      · obtain rfl := Option.some.inj (happ.symm.trans happ')
        exact hagree.same (registered_iff.mpr ⟨corp, hfind⟩) hj hfirst

end Corps

/-- A corp with two indices for one application. -/
def twoTokens : conf.Value :=
  .afterCalls [(bytes "CorpInfo.1_name", bytes "c"), (bytes "CorpInfo.1_corpid", bytes "id"),
    (bytes "c.1_name", bytes "a"), (bytes "c.1_callback_token", bytes "t"),
    (bytes "c.2_name", bytes "a"), (bytes "c.2_callback_token", bytes "u")]

theorem registered_twoTokens : Registered twoTokens (bytes "c") := by
  have hname : twoTokens.get (corpKey 1 "_name") = bytes "c" := by
    rw [conf.Value.get, twoTokens, conf.Value.get?_afterCalls]
    decide
  have hid : twoTokens.get (corpKey 1 "_corpid") = bytes "id" := by
    rw [conf.Value.get, twoTokens, conf.Value.get?_afterCalls]
    decide
  refine ⟨0, by decide, hname, fun i hi => ?_⟩
  obtain rfl := Nat.le_zero.mp hi
  rw [HasCorp, corpEntry, hname, hid]
  decide

/-- The application gets the token of the second index. -/
theorem not_unmixed_twoTokens : ¬ ∀ config, Unmixed config := by
  intro h
  have hagree := (h twoTokens).paramsAgree (bytes "c") registered_twoTokens 0 (by decide) 1
    (by decide)
  simp only [appEntry, conf.Value.get, twoTokens, conf.Value.get?_afterCalls] at hagree
  exact absurd hagree (by decide)

end MosqCluster.Xauth.app
