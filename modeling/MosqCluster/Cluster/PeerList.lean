import MosqCluster.Cluster.Convergence
import Mathlib.Data.List.Induction
import Mathlib.Data.Nat.Digits.Defs
import Mathlib.Tactic.Ring

/-!
# The list of peers

The names that a node receives come from two sides: the names of a join reply, which
`MaintainProxyInstances` takes one after another, and announcements, which `on_message` takes on any
monitor. Each name is entered under `lock_`, so that a step here is one name, and steps of any
number of replies and monitors interleave as they like.

Two histories are kept: the names that were received, and the names whose monitor was started.

## Main definitions

* `PeerList`, `PeerList.next` and `peerList`: the system;
* `PeerList.Correct`: the list is what the names received so far make of it;
* `Monitor.Configured`: host and port are those of the name.

## Main results

* `PeerList.correct_of_reachable`: this is so in every reachable state, and every run only appends.
-/

namespace MosqCluster

/-! ## Host and port -/

/-- The number that decimal digits stand for. -/
def portNumber (port : Bytes) : Nat := Nat.ofDigits 10 (port.reverse.map fun c => c.toNat - 48)

/-- A decimal number up to 65535. -/
def IsPort (port : Bytes) : Prop :=
  port ≠ [] ∧ (∀ c ∈ port, (48 : UInt8) ≤ c ∧ c ≤ 57) ∧ portNumber port ≤ 65535

/-- A monitor is configured as its name says: `host:port`, or a host without a port. -/
def Monitor.Configured (m : Monitor) : Prop :=
  (∀ host port, m.name = host ++ 58 :: port → 58 ∉ host → IsPort port →
    m.host = host ∧ m.port.toInt = portNumber port) ∧
  (58 ∉ m.name → m.host = m.name ∧ m.port = 1883)

/-- A string without the separator is one piece, or none. -/
theorem split_of_not_mem {sp : UInt8} {s : Bytes} (h : sp ∉ s) :
    split sp s = if s = [] then [] else [s] := by
  induction s with
  | nil => rfl
  | cons c s ih =>
    rw [List.mem_cons, not_or] at h
    rw [split, if_neg (Ne.symm h.1), ih h.2]
    by_cases hs : s = []
    · simp [hs]
    · simp [hs]

/-- The first piece ends at the first separator. -/
theorem split_append {sp : UInt8} {host : Bytes} (h : sp ∉ host) (rest : Bytes) :
    split sp (host ++ sp :: rest) = host :: split sp rest := by
  induction host with
  | nil => rw [List.nil_append, split, if_pos rfl]
  | cons c host ih =>
    rw [List.mem_cons, not_or] at h
    rw [List.cons_append, split, if_neg (Ne.symm h.1), ih h.2]

section

variable {port : Bytes}

theorem IsPort.zero_not_mem (h : IsPort port) : 0 ∉ port := fun hzero =>
  absurd (h.2.1 0 hzero).1 (by decide)

theorem IsPort.colon_not_mem (h : IsPort port) : 58 ∉ port := fun hcolon =>
  absurd (h.2.1 58 hcolon).2 (by decide)

/-- The digits are read to the end. -/
theorem leadingNumber_eq (hdigits : ∀ c ∈ port, (48 : UInt8) ≤ c ∧ c ≤ 57) :
    leadingNumber port = portNumber port := by
  have hall : port.takeWhile (fun c => decide ((48 : UInt8) ≤ c) && decide (c ≤ 57)) = port :=
    List.takeWhile_eq_self_iff.mpr fun c hc => by simpa using hdigits c hc
  rw [leadingNumber, hall]
  induction port using List.reverseRecOn with
  | nil => rfl
  | append_singleton port c ih =>
    have hinit : ∀ c ∈ port, (48 : UInt8) ≤ c ∧ c ≤ 57 := fun c' hc' =>
      hdigits c' (List.mem_append_left _ hc')
    have hsub : (c - 48).toNat = c.toNat - 48 :=
      UInt8.toNat_sub_of_le c 48 (hdigits c (by simp)).1
    rw [List.foldl_append, ih hinit
      (List.takeWhile_eq_self_iff.mpr fun c hc => by simpa using hinit c hc), List.foldl_cons,
      List.foldl_nil, hsub, portNumber, portNumber, List.reverse_append, List.reverse_singleton,
      List.singleton_append, List.map_cons, Nat.ofDigits_cons]
    push_cast
    ring

/-- `atoi` reads a port. -/
theorem toInt_atoi (h : IsPort port) : (atoi port).toInt = portNumber port := by
  obtain ⟨hne, hdigits, hle⟩ := h
  obtain ⟨c, rest, rfl⟩ := List.exists_cons_of_ne_nil hne
  have hc := hdigits c List.mem_cons_self
  -- A digit is neither a blank nor a sign.
  have hspace : (c :: rest).dropWhile isSpace = c :: rest := by
    rw [List.dropWhile_cons, if_neg]
    have hlow := UInt8.le_iff_toNat_le.mp hc.1
    simp only [isSpace, Bool.or_eq_true, Bool.and_eq_true, decide_eq_true_eq, not_or, not_and,
      UInt8.le_iff_toNat_le]
    refine ⟨fun h => ?_, fun _ => ?_⟩
    · rw [h] at hlow
      exact absurd hlow (by decide)
    · have : UInt8.toNat 13 = 13 := rfl
      have : UInt8.toNat 48 = 48 := rfl
      omega
  have hminus : c ≠ 45 := fun h => absurd hc.1 (by rw [h]; decide)
  have hplus : c ≠ 43 := fun h => absurd hc.1 (by rw [h]; decide)
  rw [atoi, hspace]
  split
  · next heq => exact absurd (List.cons.inj heq).1 hminus
  · next heq => exact absurd (List.cons.inj heq).1 hplus
  · have hsize : Int32.size = 2 ^ 32 := rfl
    -- So all digits are read, and their number is that of a port.
    rw [leadingNumber_eq hdigits, Int32.toInt_ofInt, Int.bmod_def, hsize]
    omega

end

/-- A monitor is started with the host and the port of a name without a zero byte. -/
theorem configured_start {md5 : Bytes → Vector UInt8 16} {name : Bytes} (hname : 0 ∉ name) :
    (Monitor.start md5 name).Configured := by
  have hcString : cString name = name := cString_of_not_mem hname
  constructor
  · intro host port heq hhost hport
    obtain rfl : name = host ++ 58 :: port := heq
    have hsplit : split 58 (host ++ 58 :: port) = [host, port] := by
      rw [split_append hhost, split_of_not_mem hport.colon_not_mem, if_neg hport.1]
    simp only [Monitor.start, hcString, hsplit, cString_of_not_mem hport.zero_not_mem]
    exact ⟨trivial, toInt_atoi hport⟩
  · intro hcolon
    replace hcolon : 58 ∉ name := hcolon
    by_cases hnil : name = []
    · subst hnil
      exact ⟨rfl, rfl⟩
    · simp only [Monitor.start, hcString, split_of_not_mem hcolon, if_neg hnil]
      exact ⟨trivial, trivial⟩

/-! ## The system -/

/-- The plugin, the names of replies that have not been taken yet, and the histories. -/
structure PeerList where
  ctx : ClusterPluginContext
  /-- Of each call with a list of names, the names that are left. -/
  pending : List (List Bytes) := []
  /-- History: the names that were received. -/
  received : List Bytes := []
  /-- History: the names whose monitor was started. -/
  started : List Bytes := []

/-- Steps: a reply with names arrives, the next name of a reply is taken, a message arrives at a
monitor. -/
inductive PeerLabel
  | reply (names : List Bytes)
  | take (k : Nat)
  | announce (message : Message)

namespace PeerList

/-- `MaintainProxyInstances(const string&)`, of a name that is received. -/
def maintain (md5 : Bytes → Vector UInt8 16) (s : PeerList) (name : Bytes) : PeerList :=
  { s with
    ctx := s.ctx.maintainProxyInstance md5 name
    started := if s.ctx.clusterNodes.any (·.name = name) then s.started else s.started ++ [name] }

/-- One round of the loop of `MaintainProxyInstances(const vector<string>&)`. -/
def takeName (md5 : Bytes → Vector UInt8 16) (s : PeerList) (name : Bytes) : PeerList :=
  let s := { s with received := s.received ++ [name] }
  if s.ctx.nodeName = name then s else s.maintain md5 name

/-- `MosqClusterMonitor::on_message`. -/
def onMessage (md5 : Bytes → Vector UInt8 16) (s : PeerList) (message : Message) : PeerList :=
  if monitorTopic = cString message.topic then
    let s := { s with received := s.received ++ [message.payload] }
    if message.payload ≠ s.ctx.nodeName then s.maintain md5 message.payload else s
  else s

/-- One step. -/
def next (md5 : Bytes → Vector UInt8 16) (s : PeerList) : PeerLabel → Option PeerList
  | .reply names => some { s with pending := s.pending ++ [names] }
  | .take k =>
    match s.pending[k]? with
    | some (name :: names) => some ({ s with pending := s.pending.set k names }.takeName md5 name)
    | _ => none
  | .announce message => some (s.onMessage md5 message)

end PeerList

/-- The node `nodeName`, which asks `apiJoin`. -/
def peerList (md5 : Bytes → Vector UInt8 16) (nodeName apiJoin : Bytes) :
    TransitionSystem PeerList PeerLabel where
  init := { ctx := ⟨nodeName, apiJoin, []⟩ }
  next s l := s.next md5 l

namespace PeerList

/-- The list is what the names received so far make of it. -/
structure Correct (s : PeerList) (nodeName : Bytes) : Prop where
  /-- The names are distinct. -/
  nodup : s.ctx.names.Nodup
  /-- They are the names that were received, other than the one of the node. -/
  mem_names_iff : ∀ x, x ∈ s.ctx.names ↔ x ∈ s.received ∧ x ≠ nodeName
  /-- They are in order of first receipt. -/
  names_eq : s.ctx.names = (s.received.filter (· ≠ nodeName)).eraseDups
  /-- Each of them was started once, and no other. -/
  count_started : ∀ x, s.started.count x = if x ∈ s.ctx.names then 1 else 0
  /-- Each monitor is configured as its name says. -/
  configured : ∀ m ∈ s.ctx.clusterNodes, 0 ∉ m.name → m.Configured

/-- The list and the starts after a run begin with those before it. -/
def Extends (s s' : PeerList) : Prop :=
  s.ctx.clusterNodes <+: s'.ctx.clusterNodes ∧ s.started <+: s'.started

variable {md5 : Bytes → Vector UInt8 16} {nodeName apiJoin name : Bytes} {s s' : PeerList}

/-! ## One name -/

/-- A round of the loop is the loop over one name. -/
theorem ctx_takeName (name : Bytes) :
    (s.takeName md5 name).ctx = s.ctx.maintainProxyInstances md5 [name] := by
  rw [takeName, ClusterPluginContext.maintainProxyInstances, List.foldl_cons, List.foldl_nil]
  split_ifs
  · rfl
  · rfl

theorem ctx_onMessage (message : Message) :
    (s.onMessage md5 message).ctx = s.ctx.onMessage md5 message := by
  unfold onMessage ClusterPluginContext.onMessage
  by_cases htopic : monitorTopic = cString message.topic
  · simp only [if_pos htopic]
    by_cases hname : message.payload ≠ s.ctx.nodeName
    · simp only [if_pos hname]
      rfl
    · simp only [if_neg hname]
  · simp only [if_neg htopic]

/-- What a name that is received does to the list: nothing, or a new monitor at its end. -/
structure Receives (md5 : Bytes → Vector UInt8 16) (s : PeerList) (name : Bytes) (s' : PeerList) :
    Prop where
  nodeName_eq : s'.ctx.nodeName = s.ctx.nodeName
  received_eq : s'.received = s.received ++ [name]
  grows :
    (name = s.ctx.nodeName ∨ name ∈ s.ctx.names) ∧ s'.ctx.clusterNodes = s.ctx.clusterNodes ∧
      s'.started = s.started ∨
    (name ≠ s.ctx.nodeName ∧ name ∉ s.ctx.names) ∧
      s'.ctx.clusterNodes = s.ctx.clusterNodes ++ [Monitor.start md5 name] ∧
      s'.started = s.started ++ [name]

theorem receives_maintain (hname : name ≠ s.ctx.nodeName) :
    Receives md5 s name ({ s with received := s.received ++ [name] }.maintain md5 name) := by
  have hmem : s.ctx.clusterNodes.any (·.name = name) = true ↔ name ∈ s.ctx.names := by
    simp [ClusterPluginContext.names]
  refine ⟨ClusterPluginContext.nodeName_maintainProxyInstance name, rfl, ?_⟩
  unfold maintain ClusterPluginContext.maintainProxyInstance
  by_cases h : s.ctx.clusterNodes.any (·.name = name) = true
  · simp only [if_pos h]
    exact .inl ⟨.inr (hmem.mp h), trivial, trivial⟩
  · simp only [if_neg h]
    exact .inr ⟨⟨hname, fun hin => h (hmem.mpr hin)⟩, trivial, trivial⟩

/-- The name of the node itself is only noted. -/
theorem receives_own (hname : name = s.ctx.nodeName) :
    Receives md5 s name { s with received := s.received ++ [name] } :=
  ⟨rfl, rfl, .inl ⟨.inl hname, rfl, rfl⟩⟩

theorem receives_takeName (name : Bytes) : Receives md5 s name (s.takeName md5 name) := by
  by_cases hown : s.ctx.nodeName = name
  · rw [takeName, if_pos hown]
    exact receives_own hown.symm
  · rw [takeName, if_neg hown]
    exact receives_maintain (Ne.symm hown)

/-- The names that are left of a reply do not matter. -/
theorem Receives.of_pending {pending : List (List Bytes)}
    (h : Receives md5 { s with pending := pending } name s') : Receives md5 s name s' :=
  ⟨h.nodeName_eq, h.received_eq, h.grows⟩

/-- A step receives a name, or leaves the list and the histories. -/
theorem receives_of_next {l : PeerLabel} (h : s.next md5 l = some s') :
    (s'.ctx = s.ctx ∧ s'.received = s.received ∧ s'.started = s.started) ∨
      ∃ name, Receives md5 s name s' := by
  cases l with
  | reply names =>
    obtain rfl := Option.some.inj h
    exact .inl ⟨rfl, rfl, rfl⟩
  | take k =>
    simp only [next] at h
    split at h
    · next name names hk =>
      obtain rfl := Option.some.inj h
      have hr : Receives md5 { s with pending := s.pending.set k names } name _ :=
        receives_takeName name
      exact .inr ⟨name, hr.of_pending⟩
    · cases h
  | announce message =>
    -- An announcement may be the node's own, and other messages are not about peers.
    simp only [next, onMessage] at h
    split at h
    · refine .inr ⟨message.payload, ?_⟩
      split at h
      · next hother =>
        obtain rfl := Option.some.inj h
        exact receives_maintain hother
      · next hown =>
        obtain rfl := Option.some.inj h
        exact receives_own (not_not.mp hown)
    · obtain rfl := Option.some.inj h
      exact .inl ⟨rfl, rfl, rfl⟩

/-! ## Runs -/

/-- What holds between the list and the histories. -/
structure Invariant (md5 : Bytes → Vector UInt8 16) (s : PeerList) (nodeName : Bytes) : Prop where
  nodeName_eq : s.ctx.nodeName = nodeName
  nodup : s.ctx.names.Nodup
  names_eq : s.ctx.names = (s.received.filter (· ≠ nodeName)).eraseDups
  started_eq : s.started = s.ctx.names
  start : ∀ m ∈ s.ctx.clusterNodes, m = Monitor.start md5 m.name

theorem Invariant.mem_names_iff (h : Invariant md5 s nodeName) (x : Bytes) :
    x ∈ s.ctx.names ↔ x ∈ s.received ∧ x ≠ nodeName := by
  rw [h.names_eq, List.mem_eraseDups, List.mem_filter, decide_eq_true_eq]

/-- One more name at the end of a list, where only first occurrences count. -/
theorem eraseDups_append_singleton (xs : List Bytes) (x : Bytes) :
    (xs ++ [x]).eraseDups = if x ∈ xs then xs.eraseDups else xs.eraseDups ++ [x] := by
  rw [List.eraseDups_append]
  split_ifs with h
  · simp [List.removeAll, h]
  · simp [List.removeAll, List.eraseDups_cons, h]

theorem Invariant.receives (h : Invariant md5 s nodeName) (hr : Receives md5 s name s') :
    Invariant md5 s' nodeName := by
  have hnode : s'.ctx.nodeName = nodeName := hr.nodeName_eq.trans h.nodeName_eq
  have hin : name ∈ s.received.filter (· ≠ nodeName) ↔ name ∈ s.ctx.names := by
    rw [h.names_eq, List.mem_eraseDups]
  rcases hr.grows with ⟨hold, hnodes, hstarted⟩ | ⟨⟨hne, hnew⟩, hnodes, hstarted⟩
  · -- The name is the node's own, or one that is on the list.
    have hnames : s'.ctx.names = s.ctx.names := congrArg (List.map Monitor.name) hnodes
    refine ⟨hnode, by rw [hnames]; exact h.nodup, ?_, by rw [hstarted, hnames, h.started_eq],
      by rw [hnodes]; exact h.start⟩
    rw [hnames, hr.received_eq, List.filter_append, h.names_eq]
    rcases hold with hown | hold
    · simp [hown, h.nodeName_eq]
    · have hne : name ≠ nodeName := ((h.mem_names_iff name).mp hold).2
      have hsingle : [name].filter (· ≠ nodeName) = [name] := by simp [hne]
      rw [hsingle, eraseDups_append_singleton, if_pos (hin.mpr hold)]
  · -- The name is a new one, and goes to the end of the list.
    have hnames : s'.ctx.names = s.ctx.names ++ [name] := by
      rw [ClusterPluginContext.names, hnodes, List.map_append]
      rfl
    rw [h.nodeName_eq] at hne
    refine ⟨hnode, ?_, ?_, by rw [hstarted, hnames, h.started_eq], ?_⟩
    · rw [hnames]
      exact h.nodup.append (List.nodup_singleton _) (by simpa using hnew)
    · have hsingle : [name].filter (· ≠ nodeName) = [name] := by simp [hne]
      rw [hnames, hr.received_eq, List.filter_append, hsingle, eraseDups_append_singleton,
        if_neg fun hold => hnew (hin.mp hold), h.names_eq]
    · rw [hnodes]
      intro m hm
      rcases List.mem_append.mp hm with hm | hm
      · exact h.start m hm
      · rw [List.mem_singleton.mp hm]
        rfl

theorem Invariant.next {l : PeerLabel} (h : Invariant md5 s nodeName)
    (hnext : s.next md5 l = some s') : Invariant md5 s' nodeName := by
  rcases receives_of_next hnext with ⟨hctx, hreceived, hstarted⟩ | ⟨name, hr⟩
  · exact ⟨by rw [hctx]; exact h.nodeName_eq, by rw [hctx]; exact h.nodup,
      by rw [hctx, hreceived]; exact h.names_eq, by rw [hctx, hstarted]; exact h.started_eq,
      by rw [hctx]; exact h.start⟩
  · exact h.receives hr

theorem invariant_of_reachable (h : (peerList md5 nodeName apiJoin).Reachable s) :
    Invariant md5 s nodeName := by
  apply TransitionSystem.Reachable.invariant (P := fun s => Invariant md5 s nodeName) _ _ h
  · exact ⟨rfl, List.nodup_nil, rfl, rfl, fun m hm => by cases hm⟩
  · intro s l s' hs hnext
    exact hs.next hnext

theorem Invariant.correct (h : Invariant md5 s nodeName) : s.Correct nodeName where
  nodup := h.nodup
  mem_names_iff := h.mem_names_iff
  names_eq := h.names_eq
  count_started x := by
    rw [h.started_eq]
    split_ifs with hx
    · exact List.count_eq_one_of_mem h.nodup hx
    · exact List.count_eq_zero_of_not_mem hx
  configured m hm hzero := by
    rw [h.start m hm]
    exact configured_start hzero

/-- A step appends. -/
theorem extends_of_next {l : PeerLabel} (h : s.next md5 l = some s') : s.Extends s' := by
  rcases receives_of_next h with ⟨hctx, -, hstarted⟩ | ⟨name, hr⟩
  · rw [Extends, hctx, hstarted]
    exact ⟨List.prefix_rfl, List.prefix_rfl⟩
  · rcases hr.grows with ⟨-, hnodes, hstarted⟩ | ⟨-, hnodes, hstarted⟩
    · rw [Extends, hnodes, hstarted]
      exact ⟨List.prefix_rfl, List.prefix_rfl⟩
    · rw [Extends, hnodes, hstarted]
      exact ⟨List.prefix_append _ _, List.prefix_append _ _⟩

/-- So does a run. -/
theorem extends_of_run (h : (peerList md5 nodeName apiJoin).Run s s') : s.Extends s' := by
  apply TransitionSystem.Run.invariant (P := fun s' => s.Extends s') _ h
    ⟨List.prefix_rfl, List.prefix_rfl⟩
  intro s₁ l s₂ hs hnext
  have hstep := extends_of_next hnext
  exact ⟨hs.1.trans hstep.1, hs.2.trans hstep.2⟩

/-- In every reachable state the list holds, each once and in order of first receipt, the names that
were received other than the one of the node, each started once and configured as it says; and
from there, every run leaves the entries and the starts that there are, and only appends. -/
theorem correct_of_reachable (h : (peerList md5 nodeName apiJoin).Reachable s) :
    s.Correct nodeName ∧ ∀ s', (peerList md5 nodeName apiJoin).Run s s' → s.Extends s' :=
  ⟨(invariant_of_reachable h).correct, fun _ hrun => extends_of_run hrun⟩

/-- A reply with two names, the first of which is announced before it is taken. -/
theorem correct_of_reachable_reply_announce :
    ∃ s, (peerList (fun _ => .replicate 16 0) (bytes "me") []).exec
        (peerList (fun _ => .replicate 16 0) (bytes "me") []).init
        [.reply [bytes "a:1884", bytes "me"], .announce ⟨monitorTopic, bytes "a:1884"⟩, .take 0,
          .take 0] = some s ∧
      s.Correct (bytes "me") ∧
      ∀ s', (peerList (fun _ => .replicate 16 0) (bytes "me") []).Run s s' → s.Extends s' := by
  obtain ⟨s, hs⟩ := Option.isSome_iff_exists.mp (rfl :
    ((peerList (fun _ => .replicate 16 0) (bytes "me") []).exec
      (peerList (fun _ => .replicate 16 0) (bytes "me") []).init
      [.reply [bytes "a:1884", bytes "me"], .announce ⟨monitorTopic, bytes "a:1884"⟩, .take 0,
        .take 0]).isSome = true)
  exact ⟨s, hs, correct_of_reachable (TransitionSystem.reachable_of_exec hs)⟩

end PeerList

end MosqCluster
