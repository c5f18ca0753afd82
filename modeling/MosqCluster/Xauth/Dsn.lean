import Mathlib.Logic.Function.Basic
import MosqCluster.Helper.XString

/-!
# Data source names

`DSN` of `xauth/db/xdb.cpp`, which reads

  `[dbtype]://[user[:password]@][host][:port][/dbname][?param1=value1&...]`

by searches for one delimiter after another, each from an offset on to the end of the string.

## Main definitions

* `DSN.parse` and the accessors of a `DSN`;
* `Components`: what a data source name in the format is made of, and `Components.render`;
* `Reads`: parsing a rendered name gives its components back.

## Main results

* `reads_iff`: exactly when it does.
-/

namespace MosqCluster.Xauth

/-- `DSN`. The fields keep the underscore of the source; the accessors have the plain names. -/
structure DSN where
  connstr_ : Bytes
  dbtype_ : Bytes
  host_ : Bytes
  port_ : Bytes
  dbname_ : Bytes
  username_ : Bytes
  password_ : Bytes
  parameters_ : Bytes → Option Bytes

/-- `std::string::find` of a text that is not empty, from the start. -/
def findText (text : Bytes) : Bytes → Option Nat
  | [] => none
  | b :: str =>
    if text.isPrefixOf (b :: str) then some 0 else (findText text str).map (· + 1)

/-- `substr(pos, stop - pos)`. Where `stop` lies before `pos` the difference wraps around, and the
string is taken to its end; `none` is the exception thrown for a position behind the end. -/
def substrTo (str : Bytes) (pos stop : Nat) : Option Bytes :=
  if pos ≤ str.length then
    some (if pos ≤ stop then (str.drop pos).take (stop - pos) else str.drop pos)
  else none

/-- One turn of the loop over the parameters, which end at `fpos`. -/
def storeParameter (str : Bytes) (offset fpos : Nat) (parameters : Bytes → Option Bytes) :
    Option (Bytes → Option Bytes) :=
  match findFrom str 61 offset with
  | none => some parameters
  | some ftmp => do
    let key ← substrTo str offset ftmp
    let value ← substrTo str (ftmp + 1) fpos
    some (if key.isEmpty then parameters else Function.update parameters key (some value))

/-- The loop over the parameters. -/
def parameterLoop (str : Bytes) (offset : Nat) (parameters : Bytes → Option Bytes) :
    Option (Bytes → Option Bytes) :=
  match hfind : findFrom str 38 offset with
  | none => storeParameter str offset str.length parameters
  | some fpos => (storeParameter str offset fpos parameters).bind (parameterLoop str (fpos + 1))
termination_by str.length - offset
decreasing_by
  have hlt := lt_length_of_findFrom hfind
  obtain ⟨m, rest, -, -, rfl⟩ := exists_of_findFrom_eq_some hfind
  omega

/-- The user name, the password, and the offset behind them. -/
def readUser (str : Bytes) (offset : Nat) : Option (Bytes × Bytes × Nat) :=
  match findFrom str 64 offset with
  | none => some ([], [], offset)
  | some fpos =>
    match (findFrom str 58 offset).filter (· < fpos) with
    | some ftmp => do
      let username ← substrTo str offset ftmp
      let password ← substrTo str (ftmp + 1) fpos
      some (username, password, fpos + 1)
    | none => do
      let username ← substrTo str offset fpos
      some (username, [], fpos + 1)

/-- The host and the port, where the next slash is at `fpos2`. -/
def readAddress (str : Bytes) (offset fpos2 : Nat) : Option (Bytes × Bytes) :=
  match findFrom str 58 offset with
  | some fpos => do
    let host ← substrTo str offset fpos
    let port ← substrTo str (fpos + 1) fpos2
    some (host, port)
  | none => do
    let host ← substrTo str offset fpos2
    some (host, [])

/-- The name of the database and the parameters, behind the slash at `fpos2`. -/
def readDatabase (str : Bytes) (fpos2 : Nat) : Option (Bytes × (Bytes → Option Bytes)) :=
  if str.length ≤ fpos2 then some ([], fun _ => none)
  else
    match findFrom str 63 (fpos2 + 1) with
    | none => do
      let dbname ← substrTo str (fpos2 + 1) str.length
      some (dbname, fun _ => none)
    | some fpos3 => do
      let dbname ← substrTo str (fpos2 + 1) fpos3
      let parameters ← parameterLoop str (fpos3 + 1) fun _ => none
      some (dbname, parameters)

namespace DSN

/-- `DSN::Clear`. -/
def clear : DSN where
  connstr_ := []
  dbtype_ := []
  host_ := []
  port_ := []
  dbname_ := []
  username_ := []
  password_ := []
  parameters_ := fun _ => none

/-- `DSN::Parse`, which starts by clearing every field: what it returns, and the fields after it.
`none` is an exception. -/
def parse (str : Bytes) : Option (Int32 × DSN) :=
  match findText (bytes "://") str with
  | none => some (-1, { clear with connstr_ := str })
  | some fpos1 => do
    let dbtype_ ← substrTo str 0 fpos1
    let fpos2 := (findFrom str 47 (fpos1 + 3)).getD str.length
    let (username_, password_, offset) ← readUser str (fpos1 + 3)
    let (host_, port_) ← readAddress str offset fpos2
    let (dbname_, parameters_) ← readDatabase str fpos2
    some (0, ⟨str, dbtype_, host_, port_, dbname_, username_, password_, parameters_⟩)

variable (dsn : DSN)

/-- `DSN::Param`. -/
def param (key : Bytes) : Bytes := (dsn.parameters_ key).getD []

/-- A component or, where it is empty, the parameter of a name. -/
def orParam (component : Bytes) (key : String) : Bytes :=
  if component.isEmpty then dsn.param (bytes key) else component

/-- `DSN::Type`. -/
def type : Bytes := dsn.dbtype_

/-- `DSN::Host`. -/
def host : Bytes := dsn.orParam dsn.host_ "host"

/-- `DSN::Port`. -/
def port : Bytes := dsn.orParam dsn.port_ "port"

/-- `DSN::DBName`. -/
def dbname : Bytes := dsn.orParam dsn.dbname_ "dbname"

/-- `DSN::Username`. -/
def username : Bytes := dsn.orParam dsn.username_ "user"

/-- `DSN::Password`. -/
def password : Bytes := dsn.orParam dsn.password_ "password"

/-- An accessor gives the component, unless that is empty and a parameter stands in for it. -/
theorem orParam_eq_iff {component : Bytes} {key : String} :
    dsn.orParam component key = component ↔
      component ≠ [] ∨ dsn.param (bytes key) = [] := by
  rw [orParam]
  cases component with
  | nil => simp
  | cons b s => simp

end DSN

/-! ## The format -/

/-- None of the characters of a text occurs in a byte string. -/
def Free (excluded : String) (s : Bytes) : Prop := ∀ b ∈ bytes excluded, b ∉ s

instance (excluded : String) (s : Bytes) : Decidable (Free excluded s) :=
  List.decidableBAll (fun b => b ∉ s) (bytes excluded)

/-- What a data source name in the format is made of. A type or a host that is absent is empty. -/
structure Components where
  dbtype : Bytes
  user : Option Bytes
  password : Option Bytes
  host : Bytes
  port : Option Bytes
  dbname : Option Bytes
  params : List (Bytes × Bytes)
  /-- A password stands behind a user name only. -/
  user_of_password : password ≠ none → user ≠ none
  dbtype_free : Free ":/" dbtype
  user_free : ∀ s ∈ user, Free ":@/" s
  password_free : ∀ s ∈ password, Free "@/" s
  host_free : Free "/@:?" host
  port_free : ∀ s ∈ port, Free "/@:?" s
  dbname_free : ∀ s ∈ dbname, Free "/?" s
  name_free : ∀ p ∈ params, p.1 ≠ [] ∧ Free "=&" p.1
  value_free : ∀ p ∈ params, Free "&" p.2

/-- A component behind the delimiter that introduces it. -/
def introduced (b : UInt8) : Option Bytes → Bytes
  | none => []
  | some s => b :: s

/-- Parameters, separated by ampersands. -/
def renderParams : List (Bytes × Bytes) → Bytes
  | [] => []
  | [(key, value)] => key ++ 61 :: value
  | (key, value) :: params => key ++ 61 :: (value ++ 38 :: renderParams params)

/-- A map with parameters put in, of which the last one of a name counts. -/
def stored (parameters : Bytes → Option Bytes) : List (Bytes × Bytes) → Bytes → Option Bytes
  | [] => parameters
  | (key, value) :: params => stored (Function.update parameters key (some value)) params

namespace Components

variable (d : Components)

/-- The user name and the password. -/
def userinfo : Bytes :=
  match d.user with
  | none => []
  | some user => user ++ introduced 58 d.password ++ [64]

/-- The host and the port. -/
def address : Bytes := d.host ++ introduced 58 d.port

/-- The name of the database and the parameters. -/
def path : Bytes :=
  introduced 47 d.dbname ++ if d.params.isEmpty then [] else 63 :: renderParams d.params

/-- A data source name in the format. -/
def render : Bytes := d.dbtype ++ (bytes "://" ++ (d.userinfo ++ (d.address ++ d.path)))

/-- The parameters as a map. -/
def parameters : Bytes → Option Bytes := stored (fun _ => none) d.params

/-- The fields that hold the components, with nothing for those that are absent. -/
def toDSN : DSN where
  connstr_ := d.render
  dbtype_ := d.dbtype
  host_ := d.host
  port_ := d.port.getD []
  dbname_ := d.dbname.getD []
  username_ := d.user.getD []
  password_ := d.password.getD []
  parameters_ := d.parameters

/-- Parsing a rendered name returns zero and gives its components back. -/
def Reads : Prop := DSN.parse d.render = some (0, d.toDSN)

/-- A character does not occur in the name of the database, nor in the parameters. -/
def LaterFree (b : UInt8) : Prop :=
  (∀ s ∈ d.dbname, b ∉ s) ∧ ∀ p ∈ d.params, b ∉ p.1 ∧ b ∉ p.2

/-- The offset behind the type. -/
def offset : Nat := d.dbtype.length + 3

/-- `fpos2`, the next slash behind the type. -/
def slash : Nat := (findFrom d.render 47 d.offset).getD d.render.length

end Components

/-! ## Searching from an offset -/

/-- From an offset on, a string goes on with `rest`. -/
structure RestAt (str : Bytes) (offset : Nat) (rest : Bytes) : Prop where
  drop : str.drop offset = rest
  le : offset ≤ str.length

namespace RestAt

variable {str m rest s : Bytes} {offset pos stop : Nat} {b : UInt8}

theorem length (h : RestAt str offset rest) : str.length = offset + rest.length := by
  have hlen := congrArg List.length h.drop
  rw [List.length_drop] at hlen
  have hle := h.le
  omega

/-- The first byte of this kind. -/
theorem find (h : RestAt str offset (m ++ b :: rest)) (hb : b ∉ m) :
    findFrom str b offset = some (offset + m.length) := by
  have hsplit : str = str.take offset ++ (m ++ b :: rest) := by
    rw [← h.drop, List.take_append_drop]
  have hlen : (str.take offset).length = offset := List.length_take_of_le h.le
  have hfind := findFrom_append hb (str.take offset) rest
  rwa [← hsplit, hlen] at hfind

/-- A byte that does not occur any more. -/
theorem find_eq_none (h : RestAt str offset rest) (hb : b ∉ rest) :
    findFrom str b offset = none :=
  findFrom_eq_none_iff.mpr (h.drop ▸ hb)

/-- What is found lies behind everything that is free of the byte. -/
theorem le_of_find (h : RestAt str offset (m ++ rest)) (hb : b ∉ m)
    (hfind : findFrom str b offset = some pos) : offset + m.length ≤ pos := by
  obtain ⟨m', rest', hdrop, -, rfl⟩ := exists_of_findFrom_eq_some hfind
  by_contra hlt
  have hshort : m'.length < m.length := by omega
  have hget : (m ++ rest)[m'.length]? = some b := by
    rw [← h.drop, hdrop]
    simp
  rw [List.getElem?_append_left hshort] at hget
  exact hb (List.mem_of_getElem? hget)

/-- The part of the string up to a stop. -/
theorem substr (h : RestAt str offset (m ++ rest)) :
    substrTo str offset (offset + m.length) = some m := by
  rw [substrTo, if_pos h.le, if_pos (Nat.le_add_right ..), h.drop, Nat.add_sub_cancel_left,
    List.take_left]

/-- The string behind a part of it. -/
theorem skip (h : RestAt str offset (m ++ rest)) : RestAt str (offset + m.length) rest where
  drop := by rw [← List.drop_drop, h.drop, List.drop_left]
  le := by
    have hlen := h.length
    rw [List.length_append] at hlen
    omega

/-- The string behind a byte. -/
theorem skip_cons (h : RestAt str offset (b :: rest)) : RestAt str (offset + 1) rest :=
  skip (m := [b]) h

end RestAt

/-- The length of a part of a string. -/
theorem length_of_substrTo {str s : Bytes} {pos stop : Nat} (h : substrTo str pos stop = some s)
    (hle : pos ≤ stop) (hstop : stop ≤ str.length) : s.length = stop - pos := by
  rw [substrTo, if_pos (by omega), if_pos hle, Option.some.injEq] at h
  rw [← h, List.length_take, List.length_drop]
  omega

/-- A text is found where its first character occurs for the first time. -/
theorem findText_append {m text rest : Bytes} {b : UInt8} (hb : b ∉ m) :
    findText (b :: text) (m ++ (b :: text ++ rest)) = some m.length := by
  induction m with
  | nil =>
    rw [List.nil_append, List.cons_append, findText, if_pos]
    · rfl
    · exact List.isPrefixOf_iff_prefix.mpr (List.prefix_append (b :: text) rest)
  | cons c m ih =>
    have hne : b ≠ c := fun heq => hb (heq ▸ List.mem_cons_self)
    rw [List.cons_append, findText, if_neg, ih fun hmem => hb (List.mem_cons_of_mem _ hmem)]
    · rfl
    · intro hprefix
      exact hne (List.cons_prefix_cons.mp (List.isPrefixOf_iff_prefix.mp hprefix)).1

/-! ## The parameters -/

variable {str rest key value : Bytes} {offset fpos : Nat}

/-- A name that is not among the parameters keeps its value. -/
theorem stored_of_notMem {params : List (Bytes × Bytes)} (h : key ∉ params.map Prod.fst)
    (parameters : Bytes → Option Bytes) : stored parameters params key = parameters key := by
  induction params generalizing parameters with
  | nil => rfl
  | cons p params ih =>
    rw [List.map_cons, List.mem_cons, not_or] at h
    rw [stored, ih h.2, Function.update_of_ne h.1]

/-- Of parameters with different names, each is stored. -/
theorem stored_of_mem {params : List (Bytes × Bytes)} (hnodup : (params.map Prod.fst).Nodup)
    (h : (key, value) ∈ params) (parameters : Bytes → Option Bytes) :
    stored parameters params key = some value := by
  induction params generalizing parameters with
  | nil => exact absurd h List.not_mem_nil
  | cons p params ih =>
    rw [List.map_cons, List.nodup_cons] at hnodup
    rw [stored]
    obtain rfl | hmem := List.mem_cons.mp h
    · rw [stored_of_notMem hnodup.1, Function.update_self]
    · exact ih hnodup.2 hmem _

/-- One parameter is stored. -/
theorem storeParameter_eq (h : RestAt str offset (key ++ 61 :: (value ++ rest)))
    (hkey : key ≠ []) (hfree : Free "=&" key)
    (hfpos : fpos = offset + key.length + 1 + value.length) (parameters : Bytes → Option Bytes) :
    storeParameter str offset fpos parameters =
      some (Function.update parameters key (some value)) := by
  rw [storeParameter, h.find (hfree 61 (by decide))]
  simp only [h.substr, hfpos, h.skip.skip_cons.substr, Option.bind_eq_bind, Option.bind_some]
  rw [if_neg (by simpa using hkey)]

/-- The loop over rendered parameters stores them one after another. -/
theorem parameterLoop_renderParams {params : List (Bytes × Bytes)} (hne : params ≠ [])
    (hname : ∀ p ∈ params, p.1 ≠ [] ∧ Free "=&" p.1) (hvalue : ∀ p ∈ params, Free "&" p.2)
    (h : RestAt str offset (renderParams params)) (parameters : Bytes → Option Bytes) :
    parameterLoop str offset parameters = some (stored parameters params) := by
  induction params generalizing offset parameters with
  | nil => exact absurd rfl hne
  | cons p params ih =>
    obtain ⟨key, value⟩ := p
    obtain ⟨hkey, hfree⟩ := hname (key, value) List.mem_cons_self
    -- no ampersand separates before the end of the value
    have hamp : 38 ∉ key ++ 61 :: value := by
      simp [hfree 38 (by decide), hvalue (key, value) List.mem_cons_self 38 (by decide)]
    cases params with
    | nil =>
      rw [renderParams] at h
      have hlen := h.length
      rw [List.length_append, List.length_cons] at hlen
      -- the last parameter reaches to the end of the string
      have hlast : RestAt str offset (key ++ 61 :: (value ++ [])) := by rwa [List.append_nil]
      rw [parameterLoop]
      split
      · exact storeParameter_eq hlast hkey hfree (by omega) parameters
      · next hfind =>
        rw [h.find_eq_none hamp] at hfind
        cases hfind
    | cons p params =>
      have hmore : RestAt str offset
          (key ++ 61 :: (value ++ 38 :: renderParams (p :: params))) := h
      have hsplit : RestAt str offset
          ((key ++ 61 :: value) ++ 38 :: renderParams (p :: params)) := by
        rwa [List.append_assoc]
      have hfind := hsplit.find hamp
      rw [parameterLoop]
      split
      · next hnone =>
        rw [hfind] at hnone
        cases hnone
      · next fpos hsome =>
        cases hfind.symm.trans hsome
        have hlen : offset + (key ++ 61 :: value).length =
            offset + key.length + 1 + value.length := by
          rw [List.length_append, List.length_cons]
          omega
        rw [storeParameter_eq hmore hkey hfree hlen, Option.bind_some]
        exact ih (by simp) (fun p hp => hname p (List.mem_cons_of_mem _ hp))
          (fun p hp => hvalue p (List.mem_cons_of_mem _ hp)) hsplit.skip.skip_cons _

namespace Components

variable {d : Components} {username password : Bytes} {next fpos2 : Nat}

/-! ## Where the delimiters are -/

/-- A component behind its delimiter is free of another character. -/
theorem notMem_introduced {b c : UInt8} {o : Option Bytes} (hne : b ≠ c) (h : ∀ s ∈ o, b ∉ s) :
    b ∉ introduced c o := by
  cases o with
  | none => exact List.not_mem_nil
  | some s => exact List.not_mem_cons_of_ne_of_not_mem hne (h s rfl)

/-- The host and the port hold no delimiter but the colon between them. -/
theorem notMem_address {b : UInt8} (hb : b ∈ bytes "/@:?") (hne : b ≠ 58) : b ∉ d.address := by
  rw [address, List.mem_append, not_or]
  exact ⟨d.host_free b hb, notMem_introduced hne fun s hs => d.port_free s hs b hb⟩

/-- What stands behind the address starts with a slash or a question mark. -/
theorem path_cases : d.path = [] ∨ ∃ b rest, d.path = b :: rest ∧ (b = 47 ∨ b = 63) := by
  rw [path]
  cases d.dbname with
  | some s => exact .inr ⟨47, _, rfl, .inl rfl⟩
  | none =>
    by_cases hparams : d.params.isEmpty
    · exact .inl (by rw [if_pos hparams]; rfl)
    · exact .inr ⟨63, _, by rw [if_neg hparams]; rfl, .inr rfl⟩

/-- The user name and the password hold no slash. -/
theorem slash_notMem_userinfo : 47 ∉ d.userinfo := by
  rw [userinfo]
  cases huser : d.user with
  | none => exact List.not_mem_nil
  | some user =>
    have huserfree : 47 ∉ user := d.user_free user huser 47 (by decide)
    have hpassword : 47 ∉ introduced 58 d.password :=
      notMem_introduced (by decide) fun s hs => d.password_free s hs 47 (by decide)
    simp [huserfree, hpassword]

/-- What stands behind the address starts with a slash or a question mark, so another character is
found behind that. -/
theorem lt_of_find {b : UInt8} {m : Bytes} {fpos : Nat} (h : RestAt str offset (m ++ d.path))
    (hm : b ∉ m) (hslash : b ≠ 47) (hmark : b ≠ 63) (hfind : findFrom str b offset = some fpos) :
    offset + m.length < fpos := by
  obtain hnil | ⟨c, rest, hpath, hc⟩ := d.path_cases
  · rw [hnil, List.append_nil] at h
    rw [h.find_eq_none hm] at hfind
    cases hfind
  · have hsplit : RestAt str offset ((m ++ [c]) ++ rest) := by simpa [hpath] using h
    have hnot : b ∉ m ++ [c] := by
      obtain rfl | rfl := hc <;> simpa [hm]
    have hbehind := hsplit.le_of_find hnot hfind
    rw [List.length_append, List.length_singleton] at hbehind
    omega

/-! ## The user -/

/-- A user name without a password is read. -/
theorem readUser_user {user rest : Bytes} (h : RestAt str offset (user ++ 64 :: rest))
    (hcolon : 58 ∉ user) (hat : 64 ∉ user) :
    readUser str offset = some (user, [], offset + user.length + 1) := by
  have hfilter : (findFrom str 58 offset).filter (· < offset + user.length) = none := by
    rw [Option.filter_eq_none_iff]
    intro ftmp hftmp
    have := h.le_of_find hcolon hftmp
    simpa using this
  rw [readUser, h.find hat]
  simp only [hfilter, h.substr, Option.bind_eq_bind, Option.bind_some]

/-- A user name and a password are read. -/
theorem readUser_password {user password rest : Bytes}
    (h : RestAt str offset (user ++ 58 :: (password ++ 64 :: rest))) (hcolon : 58 ∉ user)
    (hat : 64 ∉ user) (hpassword : 64 ∉ password) :
    readUser str offset =
      some (user, password, offset + user.length + 1 + password.length + 1) := by
  have hboth : RestAt str offset ((user ++ 58 :: password) ++ 64 :: rest) := by simpa using h
  have hfpos := hboth.find (by simp [hat, hpassword])
  rw [show offset + (user ++ 58 :: password).length =
    offset + user.length + 1 + password.length by
      rw [List.length_append, List.length_cons]
      omega] at hfpos
  have hlt : offset + user.length < offset + user.length + 1 + password.length := by omega
  rw [readUser, hfpos, h.find hcolon]
  simp only [Option.filter_some, hlt, decide_true, if_true, h.substr, h.skip.skip_cons.substr,
    Option.bind_eq_bind, Option.bind_some]

/-- The user name and the password are read where no at sign misleads. -/
theorem readUser_render (h : RestAt str offset (d.userinfo ++ (d.address ++ d.path)))
    (hat : d.user = none → 64 ∉ d.path) :
    readUser str offset =
      some (d.user.getD [], d.password.getD [], offset + d.userinfo.length) := by
  cases huser : d.user with
  | none =>
    have hpassword : d.password = none := by
      by_contra hne
      exact d.user_of_password hne huser
    have hinfo : d.userinfo = [] := by rw [userinfo, huser]
    -- no at sign is found at all
    have hnone : 64 ∉ d.userinfo ++ (d.address ++ d.path) := by
      rw [hinfo, List.nil_append, List.mem_append, not_or]
      exact ⟨notMem_address (by decide) (by decide), hat huser⟩
    rw [readUser, h.find_eq_none hnone, hpassword, hinfo]
    rfl
  | some user =>
    have hcolon : 58 ∉ user := d.user_free user huser 58 (by decide)
    have hatsign : 64 ∉ user := d.user_free user huser 64 (by decide)
    cases hpass : d.password with
    | none =>
      have hinfo : d.userinfo = user ++ [64] := by
        rw [userinfo, huser, hpass]
        simp [introduced]
      rw [hinfo, List.append_assoc] at h
      rw [readUser_user h hcolon hatsign, hinfo, List.length_append]
      rfl
    | some password =>
      have hfree : 64 ∉ password := d.password_free password hpass 64 (by decide)
      have hinfo : d.userinfo = user ++ 58 :: (password ++ [64]) := by
        rw [userinfo, huser, hpass]
        simp [introduced]
      have hfirst : RestAt str offset
          (user ++ 58 :: (password ++ 64 :: (d.address ++ d.path))) := by
        simpa [hinfo] using h
      rw [readUser_password hfirst hcolon hatsign hfree, hinfo]
      simp only [List.length_append, List.length_cons, List.length_nil, Option.getD_some,
        Nat.add_assoc, Nat.add_comm 1]

/-- An at sign in a later component is taken for the one behind the user. -/
theorem readUser_ne (h : RestAt str offset (d.address ++ d.path)) (hmem : 64 ∈ d.path)
    (hread : readUser str offset = some (username, password, next)) :
    ¬ (username = [] ∧ password = []) := by
  rintro ⟨rfl, rfl⟩
  have hlen := h.length
  have hat : 64 ∉ d.address := d.notMem_address (by decide) (by decide)
  obtain ⟨fpos, hfpos⟩ : ∃ fpos, findFrom str 64 offset = some fpos := by
    rw [← Option.ne_none_iff_exists', ne_eq, findFrom_eq_none_iff, not_not, h.drop]
    exact List.mem_append_right _ hmem
  -- the at sign that is found is one of the path
  have hbehind := lt_of_find h hat (by decide) (by decide) hfpos
  have hend := lt_length_of_findFrom hfpos
  rw [readUser, hfpos] at hread
  dsimp only at hread
  split at hread
  · next ftmp hftmp =>
    obtain ⟨hfind, hlt⟩ := Option.filter_eq_some_iff.mp hftmp
    have hlt : ftmp < fpos := by simpa using hlt
    simp only [Option.bind_eq_bind, Option.bind_eq_some_iff, Option.some.injEq,
      Prod.mk.injEq] at hread
    obtain ⟨_, huser, _, hpassword, rfl, rfl, -⟩ := hread
    have hle : offset ≤ ftmp := by simpa using RestAt.le_of_find (m := []) h (by simp) hfind
    have huserlen := length_of_substrTo huser hle (by omega)
    have hpasslen := length_of_substrTo hpassword (by omega) (by omega)
    rw [List.length_nil] at huserlen hpasslen
    -- there is no room for an address, so the colon would be the first byte of the path
    have haddress : d.address = [] := List.length_eq_zero_iff.mp (by omega)
    rw [haddress] at h
    have hcolon := lt_of_find h List.not_mem_nil (by decide) (by decide) hfind
    rw [List.length_nil] at hcolon
    omega
  · simp only [Option.bind_eq_bind, Option.bind_eq_some_iff, Option.some.injEq,
      Prod.mk.injEq] at hread
    obtain ⟨_, huser, rfl, -⟩ := hread
    have huserlen := length_of_substrTo huser (by omega) (by omega)
    rw [List.length_nil] at huserlen
    omega

/-! ## The address -/

/-- The host and the port are read where no colon misleads. -/
theorem readAddress_render (h : RestAt str offset (d.address ++ d.path))
    (hcolon : d.port = none → 58 ∉ d.path) :
    readAddress str offset (offset + d.address.length) = some (d.host, d.port.getD []) := by
  have hhost : 58 ∉ d.host := d.host_free 58 (by decide)
  cases hport : d.port with
  | none =>
    have haddress : d.address = d.host := by rw [address, hport, introduced, List.append_nil]
    rw [haddress] at h ⊢
    have hnone : 58 ∉ d.host ++ d.path := by
      rw [List.mem_append, not_or]
      exact ⟨hhost, hcolon hport⟩
    rw [readAddress, h.find_eq_none hnone]
    simp only [h.substr, Option.bind_eq_bind, Option.bind_some]
    rfl
  | some port =>
    have haddress : d.address = d.host ++ 58 :: port := by rw [address, hport, introduced]
    rw [haddress, List.append_assoc] at h
    have hsub := h.skip.skip_cons.substr
    rw [show offset + d.host.length + 1 + port.length = offset + d.address.length by
      rw [haddress, List.length_append, List.length_cons]
      omega] at hsub
    rw [readAddress, h.find hhost]
    simp only [h.substr, hsub, Option.bind_eq_bind, Option.bind_some]
    rfl

/-- A colon in a later component is taken for the one before the port, and without a slash behind
the address it is read too far. -/
theorem readAddress_ne (h : RestAt str offset (d.address ++ d.path))
    (hle : offset + d.address.length ≤ fpos2) (hend : fpos2 ≤ str.length)
    (hbad : d.port = none ∧ 58 ∈ d.path ∨ offset + d.address.length < fpos2) :
    readAddress str offset fpos2 ≠ some (d.host, d.port.getD []) := by
  intro hread
  have hhost : 58 ∉ d.host := d.host_free 58 (by decide)
  have hstrlen := h.length
  cases hport : d.port with
  | none =>
    have haddress : d.address = d.host := by rw [address, hport, introduced, List.append_nil]
    rw [haddress] at h hle hbad
    -- without a port the host would have to end before the path, and no colon stands there
    cases hfind : findFrom str 58 offset with
    | none =>
      rw [readAddress, hfind] at hread
      simp only [Option.bind_eq_bind, Option.bind_eq_some_iff, Option.some.injEq,
        Prod.mk.injEq] at hread
      obtain ⟨_, hhostread, rfl, -⟩ := hread
      have hhostlen := length_of_substrTo hhostread (by omega) hend
      have hcolon : 58 ∉ d.host ++ d.path := h.drop ▸ findFrom_eq_none_iff.mp hfind
      obtain ⟨-, hmem⟩ | hlt := hbad
      · exact hcolon (List.mem_append_right _ hmem)
      · omega
    | some fpos =>
      rw [readAddress, hfind] at hread
      simp only [Option.bind_eq_bind, Option.bind_eq_some_iff, Option.some.injEq,
        Prod.mk.injEq] at hread
      obtain ⟨_, hhostread, _, -, rfl, -⟩ := hread
      have hfpos := lt_length_of_findFrom hfind
      have hbehind := lt_of_find h hhost (by decide) (by decide) hfind
      have hhostlen := length_of_substrTo hhostread (by omega) (by omega)
      omega
  | some port =>
    have haddress : d.address = d.host ++ 58 :: port := by rw [address, hport, introduced]
    have hlen := congrArg List.length haddress
    rw [List.length_append, List.length_cons] at hlen
    rw [haddress, List.append_assoc] at h
    rw [readAddress, h.find hhost] at hread
    simp only [Option.bind_eq_bind, Option.bind_eq_some_iff, Option.some.injEq, Prod.mk.injEq,
      hport, Option.getD_some] at hread
    obtain ⟨_, -, _, hportread, -, rfl⟩ := hread
    -- with a port, it would have to be longer than it is
    have hportlen := length_of_substrTo hportread (by omega) hend
    obtain ⟨hnone, -⟩ | hlt := hbad
    · exact absurd (hport.symm.trans hnone) (Option.some_ne_none _)
    · omega

/-! ## The database -/

/-- The name of the database and the parameters are read. -/
theorem readDatabase_render {dbname : Bytes} (hdbname : d.dbname = some dbname)
    (h : RestAt str offset d.path) :
    readDatabase str offset = some (dbname, d.parameters) := by
  have hfree : 63 ∉ dbname := d.dbname_free dbname hdbname 63 (by decide)
  have hpath : d.path = 47 :: (dbname ++ if d.params.isEmpty then [] else
      63 :: renderParams d.params) := by rw [path, hdbname]; rfl
  rw [hpath] at h
  have hin : ¬ str.length ≤ offset := by
    have hlen := h.length
    rw [List.length_cons] at hlen
    omega
  -- the name reaches to the question mark, or to the end of the string
  by_cases hparams : d.params = []
  · rw [if_pos (List.isEmpty_iff.mpr hparams)] at h
    have hlen := h.length
    rw [List.length_cons, List.append_nil] at hlen
    have hnone : 63 ∉ dbname ++ [] := by rwa [List.append_nil]
    have hsub := h.skip_cons.substr
    rw [show offset + 1 + dbname.length = str.length by omega] at hsub
    rw [readDatabase, if_neg hin, h.skip_cons.find_eq_none hnone]
    simp only [hsub, Option.bind_eq_bind, Option.bind_some]
    rw [parameters, hparams, stored]
  · rw [if_neg (mt List.isEmpty_iff.mp hparams)] at h
    rw [readDatabase, if_neg hin, h.skip_cons.find hfree]
    simp only [h.skip_cons.substr, Option.bind_eq_bind, Option.bind_some]
    rw [parameterLoop_renderParams hparams d.name_free d.value_free h.skip_cons.skip.skip_cons]
    rfl

/-! ## The whole name -/

/-- Behind the type and its delimiter the rest of the name follows. -/
theorem restAt_offset (d : Components) :
    RestAt d.render d.offset (d.userinfo ++ (d.address ++ d.path)) := by
  have hstart : RestAt d.render 0 d.render := ⟨List.drop_zero, Nat.zero_le _⟩
  have hrest := hstart.skip.skip
  rwa [show 0 + d.dbtype.length + (bytes "://").length = d.offset by
    rw [offset, Nat.zero_add]
    rfl] at hrest

/-- Behind the user the address follows. -/
theorem restAt_address (d : Components) :
    RestAt d.render (d.offset + d.userinfo.length) (d.address ++ d.path) :=
  d.restAt_offset.skip

/-- Parsing a rendered name is reading its parts. -/
theorem reads_iff_parts : d.Reads ↔ ∃ next,
    readUser d.render d.offset = some (d.user.getD [], d.password.getD [], next) ∧
    readAddress d.render next d.slash = some (d.host, d.port.getD []) ∧
    readDatabase d.render d.slash = some (d.dbname.getD [], d.parameters) := by
  have hfind : findText (bytes "://") d.render = some d.dbtype.length :=
    findText_append (b := 58) (d.dbtype_free 58 (by decide))
  have hstart : RestAt d.render 0 (d.dbtype ++ (bytes "://" ++ (d.userinfo ++
    (d.address ++ d.path)))) := ⟨List.drop_zero, Nat.zero_le _⟩
  have htype := hstart.substr
  rw [Nat.zero_add] at htype
  rw [Reads, DSN.parse, hfind]
  simp only [htype, Option.bind_eq_bind, Option.bind_some, Option.bind_eq_some_iff, toDSN,
    Option.some.injEq, Prod.mk.injEq, DSN.mk.injEq, Prod.exists, true_and]
  constructor
  · rintro ⟨_, _, next, huser, _, _, haddress, _, _, hdatabase, rfl, rfl, rfl, rfl, rfl, rfl⟩
    exact ⟨next, huser, haddress, hdatabase⟩
  · rintro ⟨next, huser, haddress, hdatabase⟩
    exact ⟨_, _, next, huser, _, _, haddress, _, _, hdatabase, rfl, rfl, rfl, rfl, rfl, rfl⟩

/-- No slash stands before the path. -/
theorem slash_notMem (d : Components) : 47 ∉ d.userinfo ++ d.address := by
  rw [List.mem_append, not_or]
  exact ⟨d.slash_notMem_userinfo, d.notMem_address (by decide) (by decide)⟩

/-- The next slash is the one that introduces the name of the database. -/
theorem slash_eq (h : d.dbname = none → d.params = []) :
    d.slash = d.offset + d.userinfo.length + d.address.length := by
  have hrest := d.restAt_offset
  rw [← List.append_assoc] at hrest
  have hlen := hrest.length
  cases hdbname : d.dbname with
  | none =>
    have hpath : d.path = [] := by
      rw [path, hdbname, h hdbname]
      rfl
    rw [hpath, List.append_nil] at hrest hlen
    rw [slash, hrest.find_eq_none d.slash_notMem, Option.getD_none, hlen, List.length_append,
      Nat.add_assoc]
  | some dbname =>
    rw [path, hdbname, introduced, List.cons_append] at hrest
    rw [slash, hrest.find d.slash_notMem, Option.getD_some, List.length_append, Nat.add_assoc]

/-- Where parameters follow no name of a database, the next slash lies behind their question mark,
if there is one. -/
theorem lt_slash (hnone : d.dbname = none) (hparams : d.params ≠ []) :
    d.offset + d.userinfo.length + d.address.length < d.slash := by
  have hpath : d.path = 63 :: renderParams d.params := by
    rw [path, hnone, if_neg (mt List.isEmpty_iff.mp hparams)]
    rfl
  have hrest := d.restAt_offset
  rw [hpath, ← List.append_assoc] at hrest
  have hlen := hrest.length
  rw [List.length_append, List.length_append, List.length_cons] at hlen
  -- the question mark stands before any slash
  have hsplit : RestAt d.render d.offset
      ((d.userinfo ++ d.address ++ [63]) ++ renderParams d.params) := by simpa using hrest
  have hnot : 47 ∉ d.userinfo ++ d.address ++ [63] := by
    rw [List.mem_append, not_or]
    exact ⟨d.slash_notMem, by decide⟩
  rw [slash]
  cases hfind : findFrom d.render 47 d.offset with
  | none =>
    rw [Option.getD_none]
    omega
  | some fpos =>
    have hbehind := hsplit.le_of_find hnot hfind
    rw [List.length_append, List.length_append, List.length_singleton] at hbehind
    rw [Option.getD_some]
    omega

/-- The next slash lies in the name, or at its end. -/
theorem slash_le (d : Components) : d.slash ≤ d.render.length := by
  rw [slash]
  cases hfind : findFrom d.render 47 d.offset with
  | none => exact Nat.le_refl _
  | some fpos => exact Nat.le_of_lt (lt_length_of_findFrom hfind)

/-- A character of rendered parameters that does not separate them is in one of them. -/
theorem notMem_renderParams_iff {b : UInt8} {params : List (Bytes × Bytes)} (heq : b ≠ 61)
    (hamp : b ≠ 38) : b ∉ renderParams params ↔ ∀ p ∈ params, b ∉ p.1 ∧ b ∉ p.2 := by
  induction params with
  | nil => simp [renderParams]
  | cons p params ih =>
    obtain ⟨key, value⟩ := p
    cases params with
    | nil => simp [renderParams, heq]
    | cons p params =>
      rw [List.forall_mem_cons, ← ih]
      simp only [renderParams, List.mem_append, List.mem_cons, heq, hamp, false_or, not_or]
      exact and_assoc.symm

/-- The later components are what the path holds. -/
theorem notMem_path_iff {b : UInt8} (hb : b ∉ bytes "/?=&") : b ∉ d.path ↔ d.LaterFree b := by
  have hne : b ≠ 47 ∧ b ≠ 63 ∧ b ≠ 61 ∧ b ≠ 38 := by
    have hchars : bytes "/?=&" = [47, 63, 61, 38] := by decide
    simpa [hchars] using hb
  have hdbname : b ∉ introduced 47 d.dbname ↔ ∀ s ∈ d.dbname, b ∉ s := by
    cases d.dbname <;> simp [introduced, hne]
  have hparams : b ∉ (if d.params.isEmpty then [] else 63 :: renderParams d.params) ↔
      ∀ p ∈ d.params, b ∉ p.1 ∧ b ∉ p.2 := by
    rw [← notMem_renderParams_iff hne.2.2.1 hne.2.2.2]
    cases d.params with
    | nil => simp [renderParams]
    | cons p params => simp [hne]
  rw [path, List.mem_append, not_or, hdbname, hparams, LaterFree]

/-- Parsing gives the components back exactly if parameters follow a name of a database, no at
sign follows where no user is given, and no colon where no port is given. -/
theorem reads_iff (d : Components) :
    d.Reads ↔ (d.dbname = none → d.params = []) ∧ (d.user = none → d.LaterFree 64) ∧
      (d.port = none → d.LaterFree 58) := by
  rw [← d.notMem_path_iff (b := 64) (by decide), ← d.notMem_path_iff (b := 58) (by decide),
    reads_iff_parts]
  constructor
  · rintro ⟨next, huser, haddress, -⟩
    -- one reader after the other: each must have been given the right place
    have hat : d.user = none → 64 ∉ d.path := by
      intro hnone hmem
      have hpassword : d.password = none := by
        by_contra hne
        exact d.user_of_password hne hnone
      have hinfo : d.userinfo = [] := by rw [userinfo, hnone]
      have hrest := d.restAt_offset
      rw [hinfo, List.nil_append] at hrest
      exact readUser_ne hrest hmem huser (by rw [hnone, hpassword]; exact ⟨rfl, rfl⟩)
    have hnext : next = d.offset + d.userinfo.length := by
      rw [readUser_render d.restAt_offset hat] at huser
      exact (congrArg (·.2.2) (Option.some.inj huser)).symm
    rw [hnext] at haddress
    have hparams : d.dbname = none → d.params = [] := by
      intro hnone
      by_contra hne
      have hlt := lt_slash hnone hne
      exact readAddress_ne d.restAt_address (by omega) d.slash_le (.inr hlt) haddress
    refine ⟨hparams, hat, fun hnone hmem => ?_⟩
    have hslash := slash_eq hparams
    exact readAddress_ne d.restAt_address (by omega) d.slash_le (.inl ⟨hnone, hmem⟩) haddress
  · -- where nothing misleads, every part is found
    rintro ⟨hparams, hat, hcolon⟩
    have hslash := slash_eq hparams
    refine ⟨_, readUser_render d.restAt_offset hat, ?_, ?_⟩
    · rw [hslash]
      exact readAddress_render d.restAt_address hcolon
    · have hpath := d.restAt_address.skip
      rw [← hslash] at hpath
      cases hdbname : d.dbname with
      | some dbname => exact readDatabase_render hdbname hpath
      | none =>
        have hend : d.render.length ≤ d.slash := by
          have hlen := hpath.length
          rw [path, hdbname, hparams hdbname] at hlen
          exact Nat.le_of_eq hlen
        rw [readDatabase, if_pos hend, parameters, hparams hdbname, stored]
        rfl

/-- The fields of a name that is read give back each of its parameters. -/
theorem param_toDSN {key value : Bytes} (hnodup : (d.params.map Prod.fst).Nodup)
    (h : (key, value) ∈ d.params) : d.toDSN.param key = value := by
  have hstored : d.toDSN.parameters_ key = some value := stored_of_mem hnodup h _
  rw [DSN.param, hstored, Option.getD_some]

/-- The colon in the name of the database is taken for the one before the port. -/
theorem not_reads_colon : ¬ ∀ d : Components, d.Reads := by
  intro h
  have hread := h {
    dbtype := bytes "mysql"
    user := none
    password := none
    host := bytes "db"
    port := none
    dbname := some (bytes "a:b")
    params := []
    user_of_password := fun hne => absurd rfl hne
    dbtype_free := by decide
    user_free := by simp
    password_free := by simp
    host_free := by decide
    port_free := by simp
    dbname_free := fun s hs => Option.mem_some_iff.mp hs ▸ by decide
    name_free := by simp
    value_free := by simp }
  have hhost := congrArg (Option.map fun result => result.2.host_) hread
  exact absurd hhost (by decide +kernel)

end Components

end MosqCluster.Xauth
