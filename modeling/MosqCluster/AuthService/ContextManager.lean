import MosqCluster.Helper.IniParser
import MosqCluster.Helper.Json

/-!
# The state of the auth service

`mosquitto_auth_service`: the trusted users of the configuration and the registered brokers. The
statistics that a `MosquittoContext` keeps of its clients are stubs that change nothing.

No constructor sets `lock_`, so that it is what the memory of the manager happens to hold.
`AutoLock` ignores `NULL`, and calls the virtual functions of anything else.

## Main definitions

* `MosquittoContextManager`, with `initializeNode`, `nodeNames`, `checkUser` and `checkAcl`;
* `service.initializeManager`: the manager that a configuration gives, and a content of `lock_`.

## Main results

* `MosquittoContextManager.initializeNode_eq` and the like: what is done if `lock_` is `NULL`.
-/

namespace MosqCluster

/-- `MosquittoContext`. -/
structure MosquittoContext where
  host : Bytes

/-- `MosquittoContextManager`; `lock` is the number of the pointer that `lock_` is taken for. -/
structure MosquittoContextManager where
  trustUsername : Bytes
  trustPassword : Bytes
  trustPrefix : Bytes
  lock : UInt64
  mosquittoInstances : OrderedMap XString MosquittoContext := []

/-- `AutoLock::AutoLock` and `AutoLock::~AutoLock`, of a pointer that nobody has set. -/
def autoLock (lock : UInt64) : Except Exception Unit :=
  if lock = 0 then .ok () else .error .undefinedBehaviour

namespace MosquittoContextManager

/-- What `Get` finds; `none` is `NULL`. -/
def instance? (m : MosquittoContextManager) (name : Bytes) : Option MosquittoContext :=
  m.mosquittoInstances.find? ⟨name⟩

/-- `Get`. -/
def get (m : MosquittoContextManager) (name : Bytes) :
    Except Exception (Option MosquittoContext) := do
  autoLock m.lock
  return m.instance? name

/-- The names that `NodeNames` lists. -/
def names (m : MosquittoContextManager) : List Bytes :=
  m.mosquittoInstances.map fun inst => cString inst.1.bytes

/-- `NodeNames`. -/
def nodeNames (m : MosquittoContextManager) : Except Exception (List Bytes) := do
  autoLock m.lock
  return m.names

/-- What `Initialize` makes of the map. -/
def register (m : MosquittoContextManager) (name : Bytes) : MosquittoContextManager :=
  match m.instance? name with
  | some _ => m
  | none => { m with mosquittoInstances := m.mosquittoInstances.insert ⟨name⟩ ⟨name⟩ }

/-- `Initialize`. -/
def initializeNode (m : MosquittoContextManager) (name : Bytes) :
    Except Exception MosquittoContextManager := do
  autoLock m.lock
  return m.register name

/-- The trust of `CheckUser` in a user. -/
def trusts (m : MosquittoContextManager) (username password : Bytes) : Bool :=
  if m.trustUsername = username && m.trustPassword = password then true
  else m.trustPrefix.isPrefixOf username

/-- `CheckUser`, which uses what `Get` finds, and `clientid`, for the statistics only. -/
def checkUser (m : MosquittoContextManager) (name _clientid username password : Bytes) :
    Except Exception Bool := do
  let _ ← m.get name
  return m.trusts username password

/-- `CheckAcl`, which uses what `Get` finds, and its other arguments, for the statistics only. -/
def checkAcl (m : MosquittoContextManager) (name _clientid : Bytes) (_access : Int32)
    (_topic : Bytes) : Except Exception Bool := do
  let _ ← m.get name
  return true

section Lock

variable {m : MosquittoContextManager} {name clientid username password topic : Bytes}
  {access : Int32}

theorem nodeNames_eq (hlock : m.lock = 0) : m.nodeNames = .ok m.names := by
  rw [nodeNames, hlock]
  rfl

theorem initializeNode_eq (hlock : m.lock = 0) :
    m.initializeNode name = .ok (m.register name) := by
  rw [initializeNode, hlock]
  rfl

theorem checkUser_eq (hlock : m.lock = 0) :
    m.checkUser name clientid username password = .ok (m.trusts username password) := by
  rw [checkUser, get, hlock]
  rfl

theorem checkAcl_eq (hlock : m.lock = 0) : m.checkAcl name clientid access topic = .ok true := by
  rw [checkAcl, get, hlock]
  rfl

/-- Whatever else `lock_` holds, nothing can be said of a call. -/
theorem autoLock_eq_error {lock : UInt64} (hlock : lock ≠ 0) :
    autoLock lock = .error .undefinedBehaviour := if_neg hlock

theorem initializeNode_eq_error (hlock : m.lock ≠ 0) :
    m.initializeNode name = .error .undefinedBehaviour := by
  rw [initializeNode, autoLock_eq_error hlock]
  rfl

/-- A user can be checked if and only if `lock_` is `NULL`. -/
theorem checkUser_isOk_iff : (m.checkUser name clientid username password).isOk ↔ m.lock = 0 := by
  by_cases hlock : m.lock = 0
  · rw [checkUser_eq hlock]
    exact iff_of_true rfl hlock
  · rw [checkUser, get, autoLock_eq_error hlock]
    exact iff_of_false Bool.false_ne_true hlock

theorem checkAcl_isOk_iff : (m.checkAcl name clientid access topic).isOk ↔ m.lock = 0 := by
  by_cases hlock : m.lock = 0
  · rw [checkAcl_eq hlock]
    exact iff_of_true rfl hlock
  · rw [checkAcl, get, autoLock_eq_error hlock]
    exact iff_of_false Bool.false_ne_true hlock

/-- `lock_` stays as it is. -/
@[simp]
theorem lock_register (m : MosquittoContextManager) (name : Bytes) :
    (m.register name).lock = m.lock := by
  unfold register
  split <;> rfl

end Lock

/-- A user is accepted for the configured pair, or for the configured prefix. An empty prefix is
one of every user name. -/
theorem trusts_iff {m : MosquittoContextManager} {username password : Bytes} :
    m.trusts username password = true ↔
      (username = m.trustUsername ∧ password = m.trustPassword) ∨
        m.trustPrefix <+: username := by
  unfold trusts
  split
  · next h =>
    simp only [Bool.and_eq_true, decide_eq_true_eq] at h
    exact iff_of_true rfl (.inl ⟨h.1.symm, h.2.symm⟩)
  · next h =>
    simp only [Bool.and_eq_true, decide_eq_true_eq] at h
    rw [List.isPrefixOf_iff_prefix]
    exact (or_iff_right fun hpair => h ⟨hpair.1.symm, hpair.2.symm⟩).symm

end MosquittoContextManager

/-- `service::Initialize`, for the configuration that has been loaded and what the memory of the
manager holds. -/
def service.initializeManager (config : Config) (lock : UInt64) : MosquittoContextManager where
  trustUsername := config.get (bytes "mosq_trust_username")
  trustPassword := config.get (bytes "mosq_trust_password")
  trustPrefix := config.get (bytes "mosq_trust_prefix")
  lock := lock

end MosqCluster
