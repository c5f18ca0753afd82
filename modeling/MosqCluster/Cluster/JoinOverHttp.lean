import MosqCluster.AuthService.OverHttp
import MosqCluster.Cluster.Convergence
import MosqCluster.Cluster.Join

/-!
# Joining over HTTP

The join of a node from its document to its list: `ClusterPluginContext::Initialize` posts the name
of the node, `RouteInitialize` registers it and writes all registered names, and the plugin reads
them from the reply.

## Main definitions

* `joinAnswer`: the reply;
* `joinOverHttp` and `joinAll`: a node that joins, and nodes that join one after another.

## Main results

* `length_joinAnswer_le`: how long the reply can be;
* `joinOverHttp_eq`: the name is registered, and the plugin takes over the registered names;
* `joinAll_overHttp`: a node knows those that joined before it;
* `joinOverHttp_refines`: over HTTP, a join is the three steps that the cluster makes of it.
-/

namespace MosqCluster

open Json Http

/-! ## The registered names -/

namespace MosquittoContextManager

variable {mgr : MosquittoContextManager} {name x : Bytes}

theorem names_register_perm (h : mgr.instance? name = none) :
    (mgr.register name).names.Perm (cString name :: mgr.names) := by
  rw [register, h]
  exact (OrderedMap.perm_insert h).map fun inst => cString inst.1.bytes

/-- A name is registered, and no other name with it. -/
theorem mem_names_register :
    x ∈ (mgr.register name).names ↔ x = cString name ∨ x ∈ mgr.names := by
  cases hget : mgr.instance? name with
  | none => rw [(names_register_perm hget).mem_iff, List.mem_cons]
  | some inst =>
    have hsame : mgr.register name = mgr := by rw [register, hget]
    have hmem : cString name ∈ mgr.names :=
      List.mem_map.mpr ⟨_, OrderedMap.mem_of_find? hget, rfl⟩
    rw [hsame]
    exact (or_iff_right_of_imp fun h => h ▸ hmem).symm

end MosquittoContextManager

/-! ## The size of a reply -/

namespace Json

theorem length_quoteCharacter_le (c : UInt8) : (quoteCharacter c).length ≤ 6 := by
  unfold quoteCharacter
  split_ifs
  on_goal 8 => exact Nat.le_refl 6
  on_goal 8 => exact Nat.le_add_left 1 5
  all_goals decide

/-- A character is quoted with six characters at most. -/
theorem length_valueToQuotedStringN_le (value : Bytes) :
    (valueToQuotedStringN value).length ≤ 6 * value.length + 2 := by
  have hquoted : (value.flatMap quoteCharacter).length ≤ 6 * value.length := by
    induction value with
    | nil => exact Nat.le_refl 0
    | cons c value ih =>
      have hc := length_quoteCharacter_le c
      rw [List.flatMap_cons, List.length_append, List.length_cons]
      omega
  rw [valueToQuotedStringN_eq, List.length_append, List.length_append, List.length_singleton]
  omega

namespace StreamWriter

variable {w : StreamWriter} {s : WriterState} {texts names : List Bytes}

/-- Without an indentation, lines are not broken. -/
theorem writeIndentOnce_eq (hw : w.indentation = []) (s : WriterState) :
    w.writeIndentOnce s = s := by
  rw [writeIndentOnce, writeIndent, if_pos hw, ite_self]

theorem sout_writeWithIndent (hw : w.indentation = []) (text : Bytes) (s : WriterState) :
    (w.writeWithIndent text s).sout = s.sout ++ text := by
  rw [writeWithIndent, writeIndentOnce_eq hw]
  rfl

theorem length_writeWithIndent (hw : w.indentation = []) (text : Bytes) (s : WriterState) :
    (w.writeWithIndent text s).sout.length = s.sout.length + text.length := by
  rw [sout_writeWithIndent hw, List.length_append]

/-- The texts of an array, with a comma between them. -/
theorem length_writeChildValues (hw : w.indentation = []) (texts : List Bytes) (s : WriterState) :
    (w.writeChildValues texts s).sout.length ≤
      s.sout.length + (texts.map fun text => text.length + 2).sum := by
  induction texts generalizing s with
  | nil => exact Nat.le_refl _
  | cons text texts ih =>
    cases texts with
    | nil =>
      rw [writeChildValues, length_writeWithIndent hw, List.map_singleton, List.sum_singleton]
      omega
    | cons text' texts =>
      have hrest := ih (put (bytes ",") (w.writeWithIndent text s))
      have hcomma : (put (bytes ",") (w.writeWithIndent text s)).sout.length =
          s.sout.length + text.length + 1 := by
        rw [← length_writeWithIndent hw]
        exact List.length_append
      rw [hcomma] at hrest
      rw [writeChildValues, List.map_cons, List.sum_cons]
      · omega
      · exact fun h => by cases h

/-- The elements of an array of strings, with a comma between them. -/
theorem length_writeElements (hw : w.indentation = []) (names : List Bytes)
    (hs : s.addChildValues = false) :
    (w.writeElements (names.map .string) s).sout.length ≤
      s.sout.length + (names.map fun name => (valueToQuotedStringN name).length + 2).sum := by
  induction names generalizing s with
  | nil =>
    rw [List.map_nil, writeElements]
    exact Nat.le_add_right _ _
  | cons name names ih =>
    rw [List.map_cons, writeElements, writeIndentOnce_eq hw, writeValue, pushValue, hs,
      if_neg Bool.false_ne_true, List.map_cons, List.sum_cons]
    split
    · show (s.sout ++ _).length ≤ _
      rw [List.length_append]
      omega
    · refine le_trans (ih ?_) ?_
      · exact hs
      · show ((s.sout ++ _) ++ bytes ",").length + _ ≤ _
        have hcomma : (bytes ",").length = 1 := rfl
        rw [List.length_append, List.length_append, hcomma]
        omega

/-- The texts of an array on one line. -/
theorem length_intercalate_le (texts : List Bytes) :
    (List.intercalate (bytes ", ") texts).length ≤
      (texts.map fun text => text.length + 2).sum := by
  induction texts with
  | nil => exact Nat.le_refl 0
  | cons text texts ih =>
    cases texts with
    | nil =>
      rw [List.intercalate_singleton, List.map_singleton, List.sum_singleton]
      exact Nat.le_add_right _ _
    | cons text' texts =>
      have hcomma : (bytes ", ").length = 2 := rfl
      rw [List.intercalate_cons_cons, List.length_append, List.length_append, hcomma, List.map_cons,
        List.sum_cons]
      exact Nat.add_le_add_left ih _

/-- The length of the line is added up. -/
theorem lineLength_le (texts : List Bytes) :
    lineLength texts.length texts ≤ 4 + (texts.map fun text => text.length + 2).sum := by
  have hfold : ∀ n, texts.foldl (fun length text => length + text.length) n + 2 * texts.length =
      n + (texts.map fun text => text.length + 2).sum := by
    induction texts with
    | nil => exact fun n => rfl
    | cons text texts ih =>
      intro n
      have hrest := ih (n + text.length)
      rw [List.foldl_cons, List.map_cons, List.sum_cons, List.length_cons]
      omega
  have hline := hfold (4 + (texts.length - 1) * 2)
  rw [lineLength]
  omega

/-- What stands between brackets. -/
theorem length_brackets (hw : w.indentation = []) (s s' : WriterState) :
    (w.indent (w.writeWithIndent (bytes "[") s)).sout.length = s.sout.length + 1 ∧
      (w.writeWithIndent (bytes "]") (w.unindent s')).sout.length = s'.sout.length + 1 :=
  ⟨length_writeWithIndent hw _ s, length_writeWithIndent hw _ (w.unindent s')⟩

/-- An array of strings. -/
theorem length_writeStrings (hw : w.indentation = []) (names : List Bytes)
    (hs : s.addChildValues = false) :
    (w.writeValue (.array (names.map .string)) s).sout.length ≤
      s.sout.length + 2 + (names.map fun name => (valueToQuotedStringN name).length + 2).sum := by
  have hflat : ∀ v ∈ names.map Value.string, isNested v = false := by
    intro v hv
    obtain ⟨name, -, rfl⟩ := List.mem_map.mp hv
    rfl
  have hany : (names.map Value.string).any isNested = false := by
    simpa only [List.any_eq_false, Bool.not_eq_true] using hflat
  have htexts : (names.map Value.string).map w.flatText = names.map valueToQuotedStringN := by
    rw [List.map_map]
    rfl
  rw [writeValue]
  split
  · rw [pushValue, hs, if_neg Bool.false_ne_true]
    show (s.sout ++ bytes "[]").length ≤ _
    rw [List.length_append]
    exact Nat.le_add_right _ _
  next hne =>
  dsimp only
  rw [hany, Bool.or_false]
  cases hmulti : decide (rightMargin ≤ (names.map Value.string).length * 3) with
  | true =>
    simp only [if_true, Bool.true_or, childValues_indent]
    have hbegins := (length_brackets hw { s with childValues := [] } s).1
    have hplain : (w.indent (w.writeWithIndent (bytes "[")
        { s with childValues := [] })).addChildValues = false := by
      rw [indent, writeWithIndent, writeIndentOnce_eq hw]
      exact hs
    have hbody := length_writeElements hw names hplain
    rw [(length_brackets hw s _).2]
    rw [hbegins] at hbody
    dsimp only at hbody
    omega
  | false =>
    simp only [Bool.false_eq_true, if_false, Bool.false_or, decide_eq_true_eq, childValues_indent]
    rw [writeValue_collect hflat rfl]
    dsimp only [List.nil_append]
    rw [htexts]
    split
    · rw [if_neg (by simpa using hne), (length_brackets hw s _).2]
      have hbody := length_writeChildValues hw (names.map valueToQuotedStringN)
        (w.indent (w.writeWithIndent (bytes "[")
          { s with childValues := names.map valueToQuotedStringN, addChildValues := false }))
      rw [(length_brackets hw _ s).1, List.map_map] at hbody
      dsimp only [Function.comp_def] at hbody
      omega
    · have hline := length_intercalate_le (names.map valueToQuotedStringN)
      have hbrackets : (bytes "[").length = 1 ∧ (bytes "]").length = 1 := ⟨rfl, rfl⟩
      rw [List.map_map] at hline
      dsimp only [Function.comp_def] at hline
      rw [writeLine, if_pos hw]
      dsimp only [put]
      rw [List.length_append, List.length_append, List.length_append, List.length_append,
        List.length_append, hbrackets.1, hbrackets.2, List.length_nil]
      omega

end StreamWriter

end Json

/-! ## The reply -/

variable {reader : Reader} {realToString : Option Rat → Bytes} {mgr mgr' : MosquittoContextManager}
  {req : HttpRequest} {curl : Curl} {toDouble : Bytes → Option (Option Rat)}
  {md5 : Bytes → Vector UInt8 16} {ctx ctx' : ClusterPluginContext} {data : JsonDocument}
  {names : List Bytes}

/-- The answer to a join. -/
def joinAnswer (names : List Bytes) : JsonDocument :=
  ⟨.object [(bytes "code", .int 0), (bytes "message", .string (bytes "success")),
    (bytes "nodes", .array (names.map .string))]⟩

/-- How much of a reply the names can be. -/
def namesSize (names : List Bytes) : Nat := (names.map fun name => 6 * name.length + 4).sum

theorem sum_quoted_le (names : List Bytes) :
    (names.map fun name => (valueToQuotedStringN name).length + 2).sum ≤ namesSize names := by
  unfold namesSize
  induction names with
  | nil => exact Nat.le_refl 0
  | cons name names ih =>
    have hname := length_valueToQuotedStringN_le name
    rw [List.map_cons, List.map_cons, List.sum_cons, List.sum_cons]
    omega

/-- How long a reply can be. -/
theorem length_joinAnswer_le (realToString : Option Rat → Bytes) (names : List Bytes) :
    ((joinAnswer names).write realToString false).length ≤ namesSize names + 50 := by
  have hzero : valueToString 0 = bytes "0" := by decide +kernel
  let w := newStreamWriter [] realToString
  -- all but the last member, and the bracket behind it
  let s : WriterState :=
    { sout := bytes "\x7b\"code\":0,\"message\":\"success\",\"nodes\":", indented := false }
  have hwritten : ∀ nodes : Value, JsonDocument.write realToString ⟨.object
      [(bytes "code", .int 0), (bytes "message", .string (bytes "success")),
        (bytes "nodes", nodes)]⟩ false = (w.writeValue nodes s).sout ++ bytes "\x7d" := by
    intro nodes
    rw [JsonDocument.write, JsonDocument.writer, if_neg Bool.false_ne_true, StreamWriter.write,
      StreamWriter.writeValue,
      StreamWriter.writeMembers, StreamWriter.writeMembers, StreamWriter.writeMembers,
      StreamWriter.writeValue, StreamWriter.writeValue, hzero]
    exact StreamWriter.sout_writeWithIndent rfl _ _
  have hnodes := StreamWriter.length_writeStrings (w := w) (s := s) rfl names rfl
  have hquoted := sum_quoted_le names
  have hs : s.sout.length = 38 := by decide
  have hend : (bytes "\x7d").length = 1 := rfl
  rw [joinAnswer, hwritten, List.length_append, hend]
  omega

/-- A reply of names that are not too many counts. -/
theorem sendable_joinAnswer (realToString : Option Rat → Bytes)
    (hnames : ∀ name ∈ names, IsShort name) (hsize : namesSize names ≤ 2 ^ 31 - 250) :
    Sendable realToString (joinAnswer names) where
  fits := by
    have hnodes : (Value.array (names.map .string)).Fits 2 := by
      refine Value.fits_array_iff.mpr fun v hv => ?_
      obtain ⟨name, hname, rfl⟩ := List.mem_map.mp hv
      exact fits_string (hnames name hname)
    let keys := [bytes "code", bytes "message", bytes "nodes"]
    have hkeys : keys.Pairwise (· < ·) ∧ ∀ key ∈ keys, key.length < 2 ^ 30 := by decide
    have hfits : (joinAnswer names).root.Fits 3 := by
      refine Value.fits_object_iff.mpr ⟨hkeys.1, ?_⟩
      simp only [List.forall_mem_cons]
      exact ⟨⟨by decide, (Value.fits_int 0).mono (by decide)⟩,
        ⟨by decide, (fits_string (by decide)).mono (by decide)⟩, ⟨by decide, hnodes⟩,
        fun p hp => by cases hp⟩
    exact hfits.mono (by decide)
  counts := by
    have hquoted := sum_quoted_le names
    have hlength : 4 * names.length ≤ namesSize names := by
      unfold namesSize
      clear hnames hsize hquoted
      induction names with
      | nil => exact Nat.le_refl 0
      | cons name names ih =>
        rw [List.map_cons, List.sum_cons, List.length_cons]
        omega
    refine ⟨trivial, trivial, ⟨?_, fun _ _ => ?_, ?_⟩, trivial⟩
    · rw [List.length_map]
      omega
    · have htexts : (names.map Value.string).map
          (JsonDocument.writer realToString false).flatText =
            names.map valueToQuotedStringN := by
        rw [List.map_map]
        rfl
      have hline := StreamWriter.lineLength_le (names.map valueToQuotedStringN)
      rw [List.map_map] at hline
      rw [htexts, List.length_map, ← List.length_map (f := valueToQuotedStringN)]
      dsimp only [Function.comp_def] at hline
      omega
    · clear hnames hsize hquoted hlength
      induction names with
      | nil => exact trivial
      | cons name names ih => exact ⟨trivial, ih⟩

/-- What is in a reply. -/
theorem joinReply_joinAnswer (toDouble : Bytes → Option (Option Rat))
    (realToString : Option Rat → Bytes) (md5 : Bytes → Vector UInt8 16)
    (ctx : ClusterPluginContext) (hanswer : Sendable realToString (joinAnswer names)) :
    JsonDocument.ofText (.jsonCpp toDouble) ((joinAnswer names).write realToString false) >>=
        ClusterPluginContext.joinReply md5 ctx =
      .ok (ctx.maintainProxyInstances md5 names) := by
  obtain ⟨read, hread, hagrees⟩ := exists_ofText_eq toDouble hanswer
  have hnodes : (names.map Value.string).filterMap Value.string? = names := by
    rw [List.filterMap_map]
    exact List.filterMap_some
  have hstrings : (joinAnswer names).getStrings (bytes "nodes") = .ok (some names) := by
    rw [JsonDocument.getStrings, JsonDocument.getAs_of_key (by decide) rfl]
    exact congrArg (fun nodes => Except.ok (some nodes)) hnodes
  have hcode : (joinAnswer names).getInt (bytes "code") = .ok (some 0) := by
    rw [JsonDocument.getInt, JsonDocument.getAs_of_key (by decide) rfl]
    rfl
  rw [hread]
  change ClusterPluginContext.joinReply md5 ctx read = _
  rw [ClusterPluginContext.joinReply, hagrees.getInt, hagrees.getStrings, hstrings, hcode]
  rfl

/-- The root of the document that is sent. -/
def ClusterPluginContext.joinRoot (ctx : ClusterPluginContext) : Value :=
  .object [(bytes "action", .string (bytes "join")), (bytes "node", .string ctx.nodeName)]

theorem ClusterPluginContext.joinData_eq (ctx : ClusterPluginContext) :
    ctx.joinData = .ok ⟨ctx.joinRoot⟩ := by
  rw [joinData, JsonDocument.set_bind_of_key (by decide)]
  exact JsonDocument.set_of_key (by decide) _

theorem sendable_joinRoot (realToString : Option Rat → Bytes) (hname : IsShort ctx.nodeName) :
    Sendable realToString ⟨ctx.joinRoot⟩ := by
  let keys := [bytes "action", bytes "node"]
  have hkeys : keys.Pairwise (· < ·) ∧ ∀ key ∈ keys, key.length < 2 ^ 30 := by decide
  refine ⟨fits_flat hkeys ?_, trivial, trivial, trivial⟩
  simp only [List.map_cons, List.map_nil, List.forall_mem_cons]
  exact ⟨fits_string (by decide), fits_string hname, fun v hv => by cases hv⟩

/-- `RouteInitialize` on the document of a node. -/
theorem RouteInitialize.process_of_write (toDouble : Bytes → Option (Option Rat))
    (hname : IsShort ctx.nodeName) (hlock : mgr.lock = 0)
    (hbody : req.body = JsonDocument.write realToString ⟨ctx.joinRoot⟩ false) :
    RouteInitialize.process (.jsonCpp toDouble) mgr req .new =
      .ok (mgr.register ctx.nodeName,
        answered (joinAnswer (mgr.register ctx.nodeName).names)) := by
  obtain ⟨read, hread, hagrees⟩ := exists_bodyDocument_eq toDouble
    (sendable_joinRoot realToString hname) hbody
  have haction : JsonDocument.getString ⟨ctx.joinRoot⟩ (bytes "action") =
      .ok (some (bytes "join")) := getString_of_key (by decide) rfl
  have hnode : JsonDocument.getString ⟨ctx.joinRoot⟩ (bytes "node") =
      .ok (some ctx.nodeName) := getString_of_key (by decide) rfl
  rw [process, hread]
  change (read.getString (bytes "action") >>= _) = _
  rw [hagrees.getString, hagrees.getString, haction, hnode]
  change (mgr.initializeNode ctx.nodeName >>= _) = _
  rw [MosquittoContextManager.initializeNode_eq hlock]
  change ((mgr.register ctx.nodeName).nodeNames >>= _) = _
  rw [MosquittoContextManager.nodeNames_eq (by rwa [mgr.lock_register])]
  change (JsonDocument.set _ _ _) >>= _ = _
  rw [JsonDocument.set_bind_of_key (by decide), JsonDocument.set_bind_of_key (by decide),
    JsonDocument.set_bind_of_key (by decide)]
  rfl

/-! ## Joins -/

/-- A node joins: the manager afterwards, and the plugin. -/
def joinOverHttp (curl : Curl) (reader : Reader) (realToString : Option Rat → Bytes)
    (md5 : Bytes → Vector UInt8 16) (statusCode : Int64) (mgr : MosquittoContextManager)
    (ctx : ClusterPluginContext) :
    MosquittoContextManager × Except Exception ClusterPluginContext :=
  let net := curl.network reader realToString mgr statusCode
  let mgr' := match ctx.joinData with
    | .ok data => (curl.exchange reader realToString mgr (cString ctx.apiJoin)
        (ClusterPluginContext.wrapper net).headers data.root).1
    | .error _ => mgr
  (mgr', ctx.initializePlugin reader net md5 false)

/-- Nodes join one after another. -/
def joinAll (curl : Curl) (reader : Reader) (realToString : Option Rat → Bytes)
    (md5 : Bytes → Vector UInt8 16) (statusCode : Int64) :
    MosquittoContextManager → List ClusterPluginContext →
      MosquittoContextManager × List (Except Exception ClusterPluginContext)
  | mgr, [] => (mgr, [])
  | mgr, ctx :: ctxs =>
    let (mgr, joined) := joinOverHttp curl reader realToString md5 statusCode mgr ctx
    let (mgr, rest) := joinAll curl reader realToString md5 statusCode mgr ctxs
    (mgr, joined :: rest)

/-- The headers of a join. -/
def joinHeaders : List (Bytes × Bytes) :=
  [(bytes "Connection", bytes "Close"), (bytes "Content-Type", bytes "application/json"),
    (bytes "User-Agent", bytes "mosqcluster/1.6.9.1")]

/-- A node whose join reaches the service, and whose name is a C string that is not too long. -/
structure Joinable (curl : Curl) (realToString : Option Rat → Bytes)
    (ctx : ClusterPluginContext) : Prop where
  short : IsShort ctx.nodeName
  zero_notMem : 0 ∉ ctx.nodeName
  delivers : curl.Delivers AuthServiceRoute.routeInitialize.url (cString ctx.apiJoin) joinHeaders
    (JsonDocument.write realToString ⟨ctx.joinRoot⟩ false)

/-- The names of a service are not too long, and there is room for more of them in a reply. -/
structure Room (mgr : MosquittoContextManager) (names : List Bytes) : Prop where
  short : ∀ name ∈ mgr.names, IsShort name
  size : namesSize mgr.names + namesSize names ≤ 2 ^ 31 - 250

theorem Room.register {name : Bytes} (h : Room mgr (name :: names)) (hshort : IsShort name)
    (hzero : 0 ∉ name) : Room (mgr.register name) names := by
  have hsize := h.size
  have hcons : namesSize (name :: names) = 6 * name.length + 4 + namesSize names := rfl
  rw [hcons] at hsize
  constructor
  · intro x hx
    rcases MosquittoContextManager.mem_names_register.mp hx with rfl | hx
    · rwa [cString_of_not_mem hzero]
    · exact h.short x hx
  · cases hget : mgr.instance? name with
    | some inst =>
      rw [MosquittoContextManager.register, hget]
      dsimp only
      omega
    | none =>
      have hperm := MosquittoContextManager.names_register_perm hget
      have hnames : namesSize (mgr.register name).names =
          6 * name.length + 4 + namesSize mgr.names := by
        rw [cString_of_not_mem hzero] at hperm
        exact (hperm.map _).sum_nat
      omega

/-- The service registers the name of a node, and the plugin takes over the registered names, where
`lock_` of the manager is `NULL`. -/
theorem joinOverHttp_eq (toDouble : Bytes → Option (Option Rat))
    (realToString : Option Rat → Bytes) (md5 : Bytes → Vector UInt8 16) (statusCode : Int64)
    (hlock : mgr.lock = 0) (hreads : curl.Reads) (hctx : Joinable curl realToString ctx)
    (hmgr : Room mgr [ctx.nodeName]) :
    joinOverHttp curl (.jsonCpp toDouble) realToString md5 statusCode mgr ctx =
      (mgr.register ctx.nodeName, .ok (ctx.maintainProxyInstances md5
        (mgr.register ctx.nodeName).names)) := by
  have hroom : Room (mgr.register ctx.nodeName) [] :=
    hmgr.register hctx.short hctx.zero_notMem
  -- The service registers the node first, and lists it in its answer.
  have hprocess : ∀ req : HttpRequest,
      req.body = JsonDocument.write realToString ⟨ctx.joinRoot⟩ false →
        AuthServiceRoute.routeInitialize.process (.jsonCpp toDouble) mgr req .new =
          .ok (mgr.register ctx.nodeName,
            answered (joinAnswer (mgr.register ctx.nodeName).names)) :=
    fun req hbody => RouteInitialize.process_of_write toDouble hctx.short hlock hbody
  -- The answer fits into a response, and so it arrives as it was written.
  have hsize : ((joinAnswer (mgr.register ctx.nodeName).names).write realToString
      false).length ≤ 2 ^ 31 - 200 := by
    have hlength := length_joinAnswer_le realToString (mgr.register ctx.nodeName).names
    have := hroom.size
    omega
  have hanswer : Sendable realToString (joinAnswer (mgr.register ctx.nodeName).names) :=
    sendable_joinAnswer realToString hroom.short (Nat.le_of_add_right_le hroom.size)
  have hexchange := curl.exchange_of_route hreads hctx.delivers hprocess hanswer hsize
  have hreply : (ClusterPluginContext.wrapper (curl.network (.jsonCpp toDouble) realToString mgr
      statusCode)).Replies (curl.network (.jsonCpp toDouble) realToString mgr statusCode)
        ctx.apiJoin ⟨ctx.joinRoot⟩
        ((joinAnswer (mgr.register ctx.nodeName).names).write realToString false) :=
    congrArg Prod.snd hexchange
  -- The plugin takes over the names that it reads in the reply.
  have hplugin : ctx.initializePlugin (.jsonCpp toDouble) (curl.network (.jsonCpp toDouble)
      realToString mgr statusCode) md5 false = .ok (ctx.maintainProxyInstances md5
        (mgr.register ctx.nodeName).names) := by
    rw [ClusterPluginContext.initializePlugin, if_neg Bool.false_ne_true, ctx.joinData_eq]
    exact (HttpWrapper.ask_of_reply hreply).trans
      (joinReply_joinAnswer toDouble realToString md5 ctx hanswer)
  rw [joinOverHttp, hplugin, ctx.joinData_eq]
  exact congrArg (fun p : MosquittoContextManager × Transfer => (p.1, _)) hexchange

/-- Of nodes that join one after another, each one knows the registered nodes and those that joined
before it, where `lock_` of the manager is `NULL`. -/
theorem joinAll_overHttp (toDouble : Bytes → Option (Option Rat))
    (realToString : Option Rat → Bytes) (md5 : Bytes → Vector UInt8 16) (statusCode : Int64)
    (mgr : MosquittoContextManager) {ctxs : List ClusterPluginContext} (hlock : mgr.lock = 0)
    (hreads : curl.Reads) (hctxs : ∀ ctx ∈ ctxs, Joinable curl realToString ctx)
    (hmgr : Room mgr (ctxs.map (·.nodeName))) :
    (∀ x, x ∈ (joinAll curl (.jsonCpp toDouble) realToString md5 statusCode mgr
        ctxs).1.names ↔ x ∈ mgr.names ∨ x ∈ ctxs.map (·.nodeName)) ∧
      ∀ before ctx after, ctxs = before ++ ctx :: after →
        ∃ ctx', (joinAll curl (.jsonCpp toDouble) realToString md5 statusCode mgr
            ctxs).2[before.length]? = some (.ok ctx') ∧
          ∀ x, x ∈ ctx'.names ↔ x ∈ ctx.names ∨
            x ≠ ctx.nodeName ∧ (x ∈ mgr.names ∨ x ∈ before.map (·.nodeName)) := by
  -- The induction is on the nodes that are still to join, and the manager knows the others.
  induction ctxs generalizing mgr with
  | nil =>
    refine ⟨fun x => ?_, fun before ctx after h => by simp at h⟩
    rw [joinAll, List.map_nil, List.mem_nil_iff, or_false]
  | cons ctx ctxs ih =>
    have hctx := hctxs ctx List.mem_cons_self
    have hfirst : Room mgr [ctx.nodeName] := by
      refine ⟨hmgr.short, le_trans ?_ hmgr.size⟩
      simp [namesSize]
    have hjoin := joinOverHttp_eq toDouble realToString md5 statusCode hlock hreads hctx hfirst
    have hname : ∀ x, x ∈ (mgr.register ctx.nodeName).names ↔
        x = ctx.nodeName ∨ x ∈ mgr.names := by
      intro x
      rw [MosquittoContextManager.mem_names_register,
        cString_of_not_mem hctx.zero_notMem]
    obtain ⟨hregistered, hlists⟩ := ih (mgr.register ctx.nodeName)
      (by rwa [mgr.lock_register])
      (fun c hc => hctxs c (List.mem_cons_of_mem _ hc))
      (hmgr.register hctx.short hctx.zero_notMem)
    have hall : joinAll curl (.jsonCpp toDouble) realToString md5 statusCode mgr (ctx :: ctxs) =
        ((joinAll curl (.jsonCpp toDouble) realToString md5 statusCode
            (mgr.register ctx.nodeName) ctxs).1,
          .ok (ctx.maintainProxyInstances md5 (mgr.register ctx.nodeName).names) ::
            (joinAll curl (.jsonCpp toDouble) realToString md5 statusCode
              (mgr.register ctx.nodeName) ctxs).2) := by
      rw [joinAll, hjoin]
    rw [hall]
    refine ⟨fun x => ?_, fun before c after hsplit => ?_⟩
    · rw [hregistered, hname, List.map_cons, List.mem_cons]
      tauto
    · cases before with
      | nil =>
        obtain ⟨rfl, rfl⟩ := List.cons.inj hsplit
        refine ⟨_, rfl, fun x => ?_⟩
        rw [ClusterPluginContext.mem_names_maintainProxyInstances, hname, List.map_nil]
        simp only [List.mem_nil_iff, or_false]
        tauto
      | cons first before =>
        obtain ⟨rfl, htail⟩ := List.cons.inj hsplit
        obtain ⟨ctx', hjoined, hlist⟩ := hlists before c after htail
        refine ⟨ctx', hjoined, fun x => ?_⟩
        rw [hlist, hname, List.map_cons, List.mem_cons]
        tauto

/-! ## The join of the cluster -/

namespace ClusterPluginContext

/-- The monitors of names that are all new. -/
theorem clusterNodes_maintainProxyInstances {nodes : List Bytes} (hnodes : nodes.Nodup)
    (hnew : ∀ name ∈ nodes, name ∉ ctx.names) :
    (ctx.maintainProxyInstances md5 nodes).clusterNodes =
      ctx.clusterNodes ++ (nodes.filter (· ≠ ctx.nodeName)).map (Monitor.start md5) := by
  induction nodes generalizing ctx with
  | nil => exact (List.append_nil _).symm
  | cons name nodes ih =>
    obtain ⟨hname, hnodes⟩ := List.nodup_cons.mp hnodes
    have hrest : ∀ x ∈ nodes, x ∉ ctx.names := fun x hx => hnew x (List.mem_cons_of_mem _ hx)
    rw [maintainProxyInstances, List.foldl_cons]
    by_cases hown : ctx.nodeName = name
    · rw [if_pos hown, List.filter_cons_of_neg (by simp [hown])]
      exact ih hnodes hrest
    · rw [if_neg hown, List.filter_cons_of_pos (by simp [Ne.symm hown])]
      have hstart : ctx.maintainProxyInstance md5 name =
          { ctx with clusterNodes := ctx.clusterNodes ++ [Monitor.start md5 name] } := by
        refine if_neg fun hany => hnew name List.mem_cons_self ?_
        simpa [names] using hany
      have hnew' : ∀ x ∈ nodes, x ∉ (ctx.maintainProxyInstance md5 name).names := by
        intro x hx
        rw [mem_names_maintainProxyInstance, not_or]
        exact ⟨hrest x hx, fun h => hname (h ▸ hx)⟩
      have hstarted := ih hnodes hnew'
      rw [hstart] at hstarted ⊢
      rw [maintainProxyInstances] at hstarted
      rw [hstarted, List.append_assoc]
      rfl

/-- A plugin keeps its name and its configuration. -/
theorem sameNode_maintainProxyInstances (nodes : List Bytes) (ctx : ClusterPluginContext) :
    (ctx.maintainProxyInstances md5 nodes).nodeName = ctx.nodeName ∧
      (ctx.maintainProxyInstances md5 nodes).apiJoin = ctx.apiJoin := by
  obtain ⟨new, hnew⟩ : ctx.Evolves md5 (fun _ => True) (ctx.maintainProxyInstances md5 nodes) :=
    .maintainProxyInstances nodes ctx
  exact ⟨hnew.nodeName, hnew.apiJoin⟩

end ClusterPluginContext

/-- Two plugins of one node, whose monitors may be in another order. -/
structure SamePlugin (ctx ctx' : ClusterPluginContext) : Prop where
  nodeName : ctx.nodeName = ctx'.nodeName
  apiJoin : ctx.apiJoin = ctx'.apiJoin
  clusterNodes : ctx.clusterNodes.Perm ctx'.clusterNodes

/-- The steps that the cluster makes of a join. -/
theorem exec_join {apiJoin : Bytes → Bytes} {c c' : Cluster} {a : Bytes}
    (h : (cluster md5 apiJoin).exec c [.register a, .answer a, .takeOver a] = some c') :
    c.phase a = .idle ∧ 0 ∉ a ∧ c'.registry = c.registry ++ [a] ∧
      c'.context a = (c.context a).maintainProxyInstances md5 (c.registry ++ [a]) := by
  obtain ⟨c₁, hregister, h⟩ := Option.bind_eq_some_iff.mp h
  obtain ⟨c₂, hanswer, h⟩ := Option.bind_eq_some_iff.mp h
  obtain ⟨c₃, htakeOver, h⟩ := Option.bind_eq_some_iff.mp h
  obtain rfl : c₃ = c' := Option.some.inj h
  obtain ⟨⟨hphase, hzero, -⟩, hregister⟩ := Option.ite_none_right_eq_some.mp hregister
  obtain ⟨-, hanswer⟩ := Option.ite_none_right_eq_some.mp hanswer
  obtain ⟨nodes, hnodes, htakeOver⟩ := Cluster.next_takeOver htakeOver
  obtain rfl := Option.some.inj hregister
  obtain rfl := Option.some.inj hanswer
  have hreply : nodes = c.registry ++ [a] := by simpa using hnodes.symm
  subst hreply
  subst htakeOver
  exact ⟨hphase, hzero, rfl, by simp [Cluster.update]⟩

/-- Over HTTP, a join is the three steps that the cluster makes of it: where the service has the
registered names and `lock_` of its manager is `NULL`, it has them afterwards, and the plugin is
that of the cluster, but for the order of its monitors. -/
theorem joinOverHttp_refines (toDouble : Bytes → Option (Option Rat))
    (realToString : Option Rat → Bytes) {md5 : Bytes → Vector UInt8 16} (statusCode : Int64)
    {apiJoin : Bytes → Bytes} {c c' : Cluster} {a : Bytes} (hlock : mgr.lock = 0)
    (hreads : curl.Reads)
    (hreachable : (cluster md5 apiJoin).Reachable c)
    (hexec : (cluster md5 apiJoin).exec c [.register a, .answer a, .takeOver a] = some c')
    (hctx : Joinable curl realToString (c.context a)) (hmgr : Room mgr [a])
    (hregistry : mgr.names.Perm c.registry) :
    ∃ mgr' ctx', joinOverHttp curl (.jsonCpp toDouble) realToString md5 statusCode mgr
        (c.context a) = (mgr', .ok ctx') ∧
      mgr'.names.Perm c'.registry ∧ SamePlugin ctx' (c'.context a) := by
  obtain ⟨hphase, hzero, hregistry', hcontext⟩ := exec_join hexec
  have hwell := Cluster.wellFormed_of_reachable hreachable
  have hs := Cluster.sound_of_reachable hreachable
  have hname : (c.context a).nodeName = a := hwell.nodeName a
  have hidle : a ∉ c.registry := (hs.idle a).mp hphase
  -- A node that is idle has no monitors, and the service does not know it.
  have hnone : (c.context a).names = [] := by
    refine List.eq_nil_iff_forall_not_mem.mpr fun x hx => ?_
    obtain ⟨nodes, hjoined⟩ := hs.joined a x hx
    exact absurd (hphase.symm.trans hjoined) (by simp)
  have hget : mgr.instance? a = none := by
    by_contra hget
    obtain ⟨inst, hinst⟩ := Option.ne_none_iff_exists'.mp hget
    have hmem : cString a ∈ mgr.names :=
      List.mem_map.mpr ⟨_, OrderedMap.mem_of_find? hinst, rfl⟩
    rw [cString_of_not_mem hzero] at hmem
    exact hidle (hregistry.subset hmem)
  -- The service lists the names in the order of its map, the cluster in that of the joins.
  have hnames : (mgr.register a).names.Perm (c.registry ++ [a]) := by
    have hperm := MosquittoContextManager.names_register_perm hget
    rw [cString_of_not_mem hzero] at hperm
    exact (hperm.trans (hregistry.cons a)).trans (List.perm_append_singleton a _).symm
  have hnodup : (c.registry ++ [a]).Nodup :=
    (List.perm_append_singleton a _).nodup_iff.mpr (List.nodup_cons.mpr ⟨hidle, hs.nodup⟩)
  have hnew : ∀ x : Bytes, x ∉ (c.context a).names := fun x => hnone ▸ List.not_mem_nil
  have hjoin := joinOverHttp_eq toDouble realToString md5 statusCode hlock hreads hctx
    (by rwa [hname])
  rw [hname] at hjoin
  refine ⟨_, _, hjoin, hregistry' ▸ hnames, ?_⟩
  have hself := @ClusterPluginContext.sameNode_maintainProxyInstances md5
  rw [hcontext]
  refine ⟨?_, ?_, ?_⟩
  · rw [(hself _ _).1, (hself _ _).1]
  · rw [(hself _ _).2, (hself _ _).2]
  · rw [ClusterPluginContext.clusterNodes_maintainProxyInstances (hnames.nodup_iff.mpr hnodup)
        fun x _ => hnew x,
      ClusterPluginContext.clusterNodes_maintainProxyInstances hnodup fun x _ => hnew x]
    exact ((hnames.filter _).map _).append_left _

/-! ## A plain client -/

theorem proper_joinHeaders : ∀ header ∈ joinHeaders,
    HeaderLine.Proper ⟨header.1, [], header.2⟩ ∧
      HeaderLine.isContentLength ⟨header.1, [], header.2⟩ = false := by
  intro header hheader
  simp only [joinHeaders, List.mem_cons, List.not_mem_nil, or_false] at hheader
  rcases hheader with rfl | rfl | rfl
  all_goals exact ⟨by decide, by decide⟩

/-- The joins of a plain client reach the service. -/
theorem joinable_plainCurl {name : Bytes} (hshort : IsShort name) (hzero : 0 ∉ name)
    (hlength : (plainCurl.request (joinUrl name) joinHeaders (JsonDocument.write noReal
      ⟨ClusterPluginContext.joinRoot ⟨name, joinUrl name, []⟩⟩ false)).text.length ≤
        httpMaxHeaderSize) :
    Joinable plainCurl noReal ⟨name, joinUrl name, []⟩ where
  short := hshort
  zero_notMem := hzero
  delivers := by
    have hurl : cString (joinUrl name) = joinUrl name := cString_of_not_mem (by
      show 0 ∉ bytes "http://127.0.0.1:2020/mosquitto/initialize"
      decide)
    have hparts : hostOf (joinUrl name) = bytes "127.0.0.1:2020" ∧
        pathOf (joinUrl name) = AuthServiceRoute.routeInitialize.url := ⟨rfl, rfl⟩
    have hpath : (bytes "mosquitto/initialize").all isUrlChar := by decide
    rw [hurl]
    exact plainCurl_delivers hparts (by decide) ⟨_, rfl, List.all_eq_true.mp hpath⟩
      proper_joinHeaders hlength

theorem joinable_a : Joinable plainCurl noReal ⟨bytes "a", joinUrl (bytes "a"), []⟩ :=
  joinable_plainCurl (by decide) (by decide) (by decide +kernel)

theorem joinable_b : Joinable plainCurl noReal ⟨bytes "b", joinUrl (bytes "b"), []⟩ :=
  joinable_plainCurl (by decide) (by decide) (by decide +kernel)

/-- Two nodes join. -/
theorem joinAll_overHttp_two_nodes :
    ∃ ctx', (joinAll plainCurl (.jsonCpp fun _ => none) noReal md5Abc 0 smallManager
        [⟨bytes "a", joinUrl (bytes "a"), []⟩, ⟨bytes "b", joinUrl (bytes "b"), []⟩]).2[1]? =
          some (.ok ctx') ∧ ∀ x, x ∈ ctx'.names ↔ x = bytes "a" := by
  have hctxs : ∀ ctx ∈ [(⟨bytes "a", joinUrl (bytes "a"), []⟩ : ClusterPluginContext),
      ⟨bytes "b", joinUrl (bytes "b"), []⟩], Joinable plainCurl noReal ctx := by
    rw [List.forall_mem_cons, List.forall_mem_singleton]
    exact ⟨joinable_a, joinable_b⟩
  obtain ⟨ctx', hjoined, hlist⟩ := (joinAll_overHttp (fun _ => none) noReal md5Abc 0 smallManager
    rfl plainCurl_reads hctxs ⟨by decide, by decide⟩).2
      [⟨bytes "a", joinUrl (bytes "a"), []⟩] _ [] rfl
  refine ⟨ctx', hjoined, fun x => (hlist x).trans ?_⟩
  have hother : bytes "a" ≠ bytes "b" := by decide
  constructor
  · rintro (h | ⟨-, h | h⟩)
    · cases h
    · cases h
    · exact List.mem_singleton.mp h
  · rintro rfl
    exact .inr ⟨hother, .inr List.mem_cons_self⟩

/-- The first node joins. -/
theorem joinOverHttp_refines_first_node :
    ∃ c' mgr' ctx', (cluster md5Abc joinUrl).exec (.start joinUrl)
        [.register (bytes "a"), .answer (bytes "a"), .takeOver (bytes "a")] = some c' ∧
      joinOverHttp plainCurl (.jsonCpp fun _ => none) noReal md5Abc 0 smallManager
        ((Cluster.start joinUrl).context (bytes "a")) = (mgr', .ok ctx') ∧
      mgr'.names.Perm c'.registry ∧ SamePlugin ctx' (c'.context (bytes "a")) := by
  obtain ⟨c', hexec⟩ : ∃ c', (cluster md5Abc joinUrl).exec (.start joinUrl)
      [.register (bytes "a"), .answer (bytes "a"), .takeOver (bytes "a")] = some c' :=
    Option.isSome_iff_exists.mp (by decide)
  have hroom : Room smallManager [bytes "a"] := ⟨by decide, by decide⟩
  obtain ⟨mgr', ctx', h⟩ := joinOverHttp_refines (fun _ => none) noReal 0 rfl plainCurl_reads .refl
    hexec joinable_a hroom (.refl _)
  exact ⟨c', mgr', ctx', hexec, h⟩

end MosqCluster
