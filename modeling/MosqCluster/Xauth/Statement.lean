import MosqCluster.Helper.XString

/-!
# Statements with parameters

`PostgresqlStatement` of `xauth/db/xdb_postgresql.cpp`, and what `Update` and `Query` pass to
`PQexecParams`. The values that are appended are kept in a list, and once more in a text for the
log, joined by commas. The array of pointers is made anew for each execution: in a fixed array, or
on the heap where the values are more than that.

## Main definitions

* `PostgresqlStatement`, with `append`, `paramValues` and `paramLengths`;
* `PostgresqlStatement.Binds`: an execution is passed the values;
* `PostgresqlStatement.Consistent`: so is every execution of a sequence of calls.

## Main results

* `PostgresqlStatement.paramValues_spec`: the array is that of the values;
* `PostgresqlStatement.consistent_iff`: when every execution is passed the values.
-/

namespace MosqCluster.Xauth

/-- `FieldType`. -/
abbrev FieldType := Int32

/-- `ParamValue`. -/
structure ParamValue where
  type_ : FieldType
  value_ : Bytes

/-- `ParamType`: a pointer to characters. A pointer into the list of the values is good for as long
as the list has the size it had; a list that grows may move its values. -/
inductive ParamType where
  | null
  /-- What has been left in a cell. -/
  | uninitialised (address : UInt64)
  | value (size index : Nat)

/-- `PG_STMT_PARAM_SIZE`. -/
def pgStmtParamSize : Nat := 32

/-- `PostgresqlStatement`. -/
structure PostgresqlStatement where
  sql_ : Bytes
  values_ : Bytes
  param_values_ : List ParamValue
  default_param_values_ : Vector ParamType pgStmtParamSize
  /-- An array on the heap; `none` is the fixed array. -/
  current_param_values_ : Option (List ParamType)

/-- The arguments of `PQexecParams` that are not null. -/
structure ExecParams where
  command : Bytes
  nParams : Int32
  paramValues : List ParamType

namespace PostgresqlStatement

/-- `PostgresqlStatement::PostgresqlStatement`, for what the fixed array holds. -/
def new (cells : Vector ParamType pgStmtParamSize) : PostgresqlStatement :=
  ⟨[], [], [], cells, none⟩

/-- `SetSql`. -/
def setSql (stmt : PostgresqlStatement) (sql : Bytes) : PostgresqlStatement :=
  { stmt with sql_ := sql }

/-- `PostgresqlConnection::CreateStatement`, with a connection. -/
def createStatement (cells : Vector ParamType pgStmtParamSize) (sql : Bytes) :
    PostgresqlStatement :=
  (new cells).setSql sql

/-- `Append`. -/
def append (stmt : PostgresqlStatement) (type : FieldType) (value : Bytes) : PostgresqlStatement :=
  { stmt with
    param_values_ := stmt.param_values_ ++ [⟨type, value⟩]
    values_ := if stmt.values_.isEmpty then value else stmt.values_ ++ (bytes ", " ++ value) }

/-- The loop of `ParamValues`, after a number of turns; `none` is a write outside the array. -/
def fillParams {n : Nat} (size : Nat) (cells : Vector ParamType n) :
    Nat → Option (Vector ParamType n)
  | 0 => some cells
  | i + 1 =>
    (fillParams size cells i).bind fun cells =>
      if h : i < n then some (cells.set i (.value size i) h) else none

/-- `ParamValues`. -/
def paramValues (stmt : PostgresqlStatement) : Option (PostgresqlStatement × List ParamType) :=
  let size := stmt.param_values_.length
  if pgStmtParamSize < size then
    -- an array that an execution before has left on the heap is not used again
    (fillParams size (.replicate size .null) size).map fun cells =>
      ({ stmt with current_param_values_ := some cells.toList }, cells.toList)
  else
    (fillParams size stmt.default_param_values_ size).map fun cells =>
      ({ stmt with default_param_values_ := cells, current_param_values_ := none }, cells.toList)

/-- `ParamLengths`. -/
def paramLengths (stmt : PostgresqlStatement) : Int32 :=
  -- the length of the text stands where the number of the values is asked for
  .ofNat stmt.values_.length

/-- The call of `PQexecParams` in `Update` and in `Query`. -/
def execParams (stmt : PostgresqlStatement) : Option (PostgresqlStatement × ExecParams) :=
  stmt.paramValues.map fun (stmt', cells) => (stmt', ⟨cString stmt.sql_, stmt.paramLengths, cells⟩)

/-- `PostgresqlConnection::Update`, up to the result. -/
def update (stmt : PostgresqlStatement) : Option (PostgresqlStatement × ExecParams) :=
  stmt.execParams

/-- `PostgresqlConnection::Query`, up to the result. -/
def query (stmt : PostgresqlStatement) : Option (PostgresqlStatement × ExecParams) :=
  stmt.execParams

/-- What is done with a statement. -/
inductive Call where
  | append (type : FieldType) (value : Bytes)
  | update
  | query

/-- The calls that execute the statement. -/
def Call.executes : Call → Bool
  | .append _ _ => false
  | .update | .query => true

/-- What a call executes. -/
def Call.exec (stmt : PostgresqlStatement) : Call → Option (PostgresqlStatement × ExecParams)
  | .append _ _ => none
  | .update => stmt.update
  | .query => stmt.query

/-- A call. -/
def step (stmt : PostgresqlStatement) : Call → Option PostgresqlStatement
  | .append type value => some (stmt.append type value)
  | .update => stmt.update.map Prod.fst
  | .query => stmt.query.map Prod.fst

/-- A sequence of calls. -/
def run (stmt : PostgresqlStatement) (calls : List Call) : Option PostgresqlStatement :=
  calls.foldlM step stmt

/-- The values that are appended. -/
def appended (calls : List Call) : List Bytes :=
  calls.filterMap fun
    | .append _ value => some value
    | _ => none

/-- What a pointer points to. -/
def deref (stmt : PostgresqlStatement) : ParamType → Option Bytes
  | .value size index =>
    if size = stmt.param_values_.length then stmt.param_values_[index]?.map (·.value_) else none
  | _ => none

/-- An execution is passed the values: their number, and an array whose entries point to them. -/
structure Binds (stmt : PostgresqlStatement) (exec : ExecParams) (values : List Bytes) : Prop where
  nParams : exec.nParams.toInt = values.length
  length_le : values.length ≤ exec.paramValues.length
  deref : ∀ (i : Nat) (value : Bytes), values[i]? = some value →
    ∃ p, exec.paramValues[i]? = some p ∧ stmt.deref p = some value

/-- Every execution of a sequence of calls is passed the values that have been appended. -/
def Consistent (stmt : PostgresqlStatement) (calls : List Call) : Prop :=
  ∀ before call after, calls = before ++ call :: after → call.executes = true →
    ∃ stmt' stmt'' exec, stmt.run before = some stmt' ∧ call.exec stmt' = some (stmt'', exec) ∧
      stmt''.Binds exec (appended before)

/-- The values from the first one on that is not empty. -/
def shown (values : List Bytes) : List Bytes := values.dropWhile (·.isEmpty)

/-- The length of the text of values: their bytes, and a comma and a blank for each one that is
shown after another. -/
def displayLength (values : List Bytes) : Nat :=
  values.flatten.length + 2 * ((shown values).length - 1)

/-- Where a call executes, the length of the text, as an `int`, is the number of the values. -/
def Counted (calls : List Call) : Prop :=
  ∀ before call after, calls = before ++ call :: after → call.executes = true →
    (Int32.ofNat (displayLength (appended before))).toInt = (appended before).length

/-! ## The array of pointers -/

section Fill

variable {n size : Nat} {cells : Vector ParamType n}

/-- After some turns the entries so far point to their values. -/
theorem fillParams_spec (size : Nat) (cells : Vector ParamType n) {turns : Nat} (h : turns ≤ n) :
    ∃ cells', fillParams size cells turns = some cells' ∧
      ∀ i < turns, cells'.toList[i]? = some (.value size i) := by
  induction turns with
  | zero => exact ⟨cells, rfl, fun i hi => absurd hi (Nat.not_lt_zero i)⟩
  | succ turns ih =>
    obtain ⟨cells', hfill, hcells⟩ := ih (by omega)
    refine ⟨cells'.set turns (.value size turns), ?_, fun i hi => ?_⟩
    · rw [fillParams, hfill, Option.bind_some, dif_pos (by omega)]
    · rw [Vector.toList_set]
      by_cases hlast : i = turns
      · subst hlast
        rw [List.getElem?_set_self (by rw [Vector.length_toList]; omega)]
      · rw [List.getElem?_set_ne (Ne.symm hlast)]
        exact hcells i (by omega)

end Fill

/-- The array has an entry for each value, which points to it. -/
theorem paramValues_spec (stmt : PostgresqlStatement) :
    ∃ stmt' cells, stmt.paramValues = some (stmt', cells) ∧
      stmt'.param_values_ = stmt.param_values_ ∧ stmt'.values_ = stmt.values_ ∧
      stmt.param_values_.length ≤ cells.length ∧
      ∀ (i : Nat) (value : ParamValue), stmt.param_values_[i]? = some value →
        ∃ p, cells[i]? = some p ∧ stmt'.deref p = some value.value_ := by
  have hderef : ∀ stmt' : PostgresqlStatement, stmt'.param_values_ = stmt.param_values_ →
      ∀ (cells : List ParamType),
      (∀ i < stmt.param_values_.length,
        cells[i]? = some (.value stmt.param_values_.length i)) →
      ∀ (i : Nat) (value : ParamValue), stmt.param_values_[i]? = some value →
        ∃ p, cells[i]? = some p ∧ stmt'.deref p = some value.value_ := by
    intro stmt' hvalues cells hcells i value hvalue
    obtain ⟨hlt, -⟩ := List.getElem?_eq_some_iff.mp hvalue
    refine ⟨_, hcells i hlt, ?_⟩
    rw [deref, hvalues, if_pos rfl, hvalue, Option.map_some]
  by_cases hheap : pgStmtParamSize < stmt.param_values_.length
  · obtain ⟨cells, hfill, hcells⟩ := fillParams_spec stmt.param_values_.length
      (.replicate stmt.param_values_.length .null) (Nat.le_refl _)
    refine ⟨{ stmt with current_param_values_ := some cells.toList }, cells.toList, ?_, rfl, rfl,
      by rw [Vector.length_toList], hderef _ rfl _ hcells⟩
    rw [paramValues, if_pos hheap, hfill, Option.map_some]
  · obtain ⟨cells, hfill, hcells⟩ := fillParams_spec stmt.param_values_.length
      stmt.default_param_values_ (Nat.le_of_not_lt hheap)
    refine ⟨{ stmt with default_param_values_ := cells, current_param_values_ := none },
      cells.toList, ?_, rfl, rfl, ?_, hderef _ rfl _ hcells⟩
    · rw [paramValues, if_neg hheap, hfill, Option.map_some]
    · rw [Vector.length_toList]
      exact Nat.le_of_not_lt hheap

/-! ## The text of the values -/

section Display

variable {values : List Bytes} {value : Bytes}

/-- Where nothing is shown, the values are empty. -/
theorem flatten_of_shown_eq_nil (h : shown values = []) : values.flatten = [] := by
  rw [List.flatten_eq_nil_iff]
  intro value hvalue
  have := List.dropWhile_eq_nil_iff.mp h value hvalue
  simpa using this

/-- The next value is shown by itself. -/
theorem displayLength_of_first (value : Bytes) (h : shown values = []) :
    displayLength (values ++ [value]) = value.length ∧
      (shown (values ++ [value]) = [] ↔ value = []) := by
  have hdrop : shown (values ++ [value]) = shown [value] := by
    rw [shown, List.dropWhile_append, if_pos (by rw [← shown, h]; rfl), shown]
  have hflat := flatten_of_shown_eq_nil h
  rw [displayLength, hdrop, List.flatten_append, hflat]
  by_cases hvalue : value = []
  · subst hvalue
    exact ⟨rfl, iff_of_true rfl rfl⟩
  · have hshown : shown [value] = [value] := by
      rw [shown, List.dropWhile_cons_of_neg (by simpa using hvalue)]
    rw [hshown]
    refine ⟨by simp, iff_of_false (by simp) hvalue⟩

/-- The next value is shown after a comma and a blank. -/
theorem displayLength_of_next (value : Bytes) (h : shown values ≠ []) :
    displayLength (values ++ [value]) = displayLength values + (2 + value.length) ∧
      shown (values ++ [value]) ≠ [] := by
  have hdrop : shown (values ++ [value]) = shown values ++ [value] := by
    rw [shown, List.dropWhile_append, if_neg (by simpa [shown] using h), shown]
  have hpos := List.length_pos_iff.mpr h
  rw [displayLength, displayLength, hdrop, List.flatten_append, List.length_append,
    List.length_append, List.flatten_singleton, List.length_singleton]
  exact ⟨by omega, by simp⟩

end Display

/-! ## Sequences of calls -/

/-- The list of the values, and the length of their text. -/
structure Represents (stmt : PostgresqlStatement) (values : List Bytes) : Prop where
  param_values : stmt.param_values_.map (·.value_) = values
  length_values : stmt.values_.length = displayLength values
  empty_iff : stmt.values_ = [] ↔ shown values = []

section Run

variable {stmt stmt' : PostgresqlStatement} {values : List Bytes} {call : Call} {calls : List Call}

theorem represents_createStatement (cells : Vector ParamType pgStmtParamSize) (sql : Bytes) :
    Represents (createStatement cells sql) [] :=
  ⟨rfl, rfl, iff_of_true rfl rfl⟩

theorem Represents.append (h : Represents stmt values) (type : FieldType) (value : Bytes) :
    Represents (stmt.append type value) (values ++ [value]) := by
  have hlist : (stmt.append type value).param_values_.map (·.value_) = values ++ [value] := by
    rw [PostgresqlStatement.append, List.map_append, h.param_values, List.map_singleton]
  by_cases hempty : stmt.values_ = []
  · have htext : (stmt.append type value).values_ = value := if_pos (by simpa using hempty)
    obtain ⟨hlength, hshown⟩ := displayLength_of_first value (h.empty_iff.mp hempty)
    exact ⟨hlist, by rw [htext, hlength], by rw [htext, hshown]⟩
  · -- the text is there already, so that a comma and a blank come first
    have htext : (stmt.append type value).values_ = stmt.values_ ++ (bytes ", " ++ value) :=
      if_neg (by simpa using hempty)
    obtain ⟨hlength, hshown⟩ :=
      displayLength_of_next value fun hnil => hempty (h.empty_iff.mpr hnil)
    refine ⟨hlist, ?_, iff_of_false (by simp [htext, hempty]) hshown⟩
    rw [htext, List.length_append, List.length_append, h.length_values, hlength]
    rfl

/-- What an execution is passed. -/
theorem Represents.execParams (h : Represents stmt values) :
    ∃ stmt' exec, stmt.execParams = some (stmt', exec) ∧ Represents stmt' values ∧
      (Binds stmt' exec values ↔
        (Int32.ofNat (displayLength values)).toInt = values.length) := by
  obtain ⟨stmt', cells, hparams, hlist, htext, hlength, hcells⟩ := stmt.paramValues_spec
  have hsize : stmt.param_values_.length = values.length := by
    rw [← h.param_values, List.length_map]
  refine ⟨stmt', ⟨cString stmt.sql_, stmt.paramLengths, cells⟩,
    by rw [PostgresqlStatement.execParams, hparams, Option.map_some],
    ⟨hlist ▸ h.param_values, htext ▸ h.length_values, htext ▸ h.empty_iff⟩, ?_⟩
  have hcount : stmt.paramLengths = Int32.ofNat (displayLength values) := by
    rw [paramLengths, h.length_values]
  rw [hcount]
  -- the array is that of the values in any case, and only their number is left
  constructor
  · exact Binds.nParams
  · intro hcounted
    refine ⟨hcounted, hsize ▸ hlength, fun i value hvalue => ?_⟩
    rw [← h.param_values, List.getElem?_map, Option.map_eq_some_iff] at hvalue
    obtain ⟨pv, hpv, rfl⟩ := hvalue
    exact hcells i pv hpv

theorem Represents.exec (h : Represents stmt values) (hcall : call.executes = true) :
    ∃ stmt' exec, call.exec stmt = some (stmt', exec) ∧ Represents stmt' values ∧
      (Binds stmt' exec values ↔
        (Int32.ofNat (displayLength values)).toInt = values.length) := by
  match call, hcall with
  | .update, _ => exact h.execParams
  | .query, _ => exact h.execParams

theorem Represents.step (h : Represents stmt values) (call : Call) :
    ∃ stmt', stmt.step call = some stmt' ∧ Represents stmt' (values ++ appended [call]) := by
  match call with
  | .append type value => exact ⟨_, rfl, h.append type value⟩
  | .update | .query =>
    obtain ⟨stmt', exec, hexec, h', -⟩ := h.execParams
    refine ⟨stmt', ?_, by simpa [appended] using h'⟩
    simp only [PostgresqlStatement.step, update, query, hexec, Option.map_some]

/-- After every sequence of calls the values are those that have been appended. -/
theorem Represents.run (h : Represents stmt values) (calls : List Call) :
    ∃ stmt', stmt.run calls = some stmt' ∧ Represents stmt' (values ++ appended calls) := by
  induction calls generalizing stmt values with
  | nil => exact ⟨stmt, rfl, by simpa [appended] using h⟩
  | cons call calls ih =>
    obtain ⟨stmt', hstep, h'⟩ := h.step call
    obtain ⟨stmt'', hrun, h''⟩ := ih h'
    refine ⟨stmt'', ?_, ?_⟩
    · rw [PostgresqlStatement.run, List.foldlM_cons, hstep]
      exact hrun
    · have happend : appended (call :: calls) = appended [call] ++ appended calls := by
        rw [← List.singleton_append, appended, List.filterMap_append]
        rfl
      rwa [happend, ← List.append_assoc]

end Run

/-- Every execution is passed the values that have been appended, if and only if the length of their
text, as an `int`, happens to be their number. -/
theorem consistent_iff (cells : Vector ParamType pgStmtParamSize) (sql : Bytes)
    (calls : List Call) : (createStatement cells sql).Consistent calls ↔ Counted calls := by
  refine forall₄_congr fun before call after hcalls => forall_congr' fun hcall => ?_
  obtain ⟨stmt, hrun, hstmt⟩ := (represents_createStatement cells sql).run before
  rw [List.nil_append] at hstmt
  obtain ⟨stmt', exec, hexec, -, hiff⟩ := hstmt.exec hcall
  rw [← hiff]
  constructor
  · rintro ⟨stmt₁, stmt₂, exec', hrun', hexec', hbinds⟩
    obtain rfl := Option.some.inj (hrun.symm.trans hrun')
    obtain ⟨rfl, rfl⟩ := Prod.mk.inj (Option.some.inj (hexec.symm.trans hexec'))
    exact hbinds
  · intro hbinds
    exact ⟨stmt, stmt', exec, hrun, hexec, hbinds⟩

/-- One value of two bytes. -/
theorem not_consistent_two :
    ¬ ∀ cells sql calls, (createStatement cells sql).Consistent calls := by
  intro h
  obtain ⟨stmt, stmt', exec, hrun, hexec, hbinds⟩ :=
    h (.replicate _ .null) [] [.append 2 (bytes "ab"), .update] [.append 2 (bytes "ab")] .update []
      rfl rfl
  obtain rfl := Option.some.inj hrun
  obtain ⟨-, hexec⟩ := Prod.mk.inj (Option.some.inj hexec)
  have hcount := hbinds.nParams
  rw [← hexec] at hcount
  exact absurd hcount (by decide)

end PostgresqlStatement

end MosqCluster.Xauth
