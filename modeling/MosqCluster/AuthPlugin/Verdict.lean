import MosqCluster.AuthPlugin.Context

/-!
# The verdicts of the auth plugin

`mosquitto_auth_unpwd_check` and `mosquitto_auth_acl_check` map what a check returns to a code of
the broker: everything that is not negative is a success. `Defer` is 1, so that a check whose URL is
not configured lets everybody in, where the broker expects `MOSQ_ERR_PLUGIN_DEFER`. A reply whose
root has no members raises an exception, and so does one that the reader does not get through.

## Main definitions

* `Granted`: why a check may succeed;
* `RightVerdict`: a check that is not configured is deferred, one that is granted succeeds, and
  every other one is denied;
* `Handled`: the condition under which this is so.

## Main results

* `rightVerdict_iff`: the verdicts of both functions are right if and only if the check is handled
  and no string is `NULL`.
-/

namespace MosqCluster

open Json AuthPluginContext

/-- A check may succeed for a client of the cluster, or because the call completes with status 200
and a reply with code 0. -/
def Granted (reader : Reader) (net : Network) (url client : Bytes)
    (data : Bytes → Except Exception JsonDocument) : Prop :=
  bytes "mosqcluster" <+: cString client ∨
    ∃ d content reply, data (cString client) = .ok d ∧
      (wrapper net).Replies net url d content ∧ JsonDocument.ofText reader content = .ok reply ∧
      (reply.root.member? (bytes "code")).bind Value.int? = some 0

/-- A check returns: it is deferred without a URL, and with one it succeeds if it is granted, and is
denied otherwise. -/
def RightVerdict (reader : Reader) (net : Network) (url client : Bytes)
    (data : Bytes → Except Exception JsonDocument) (verdict : Except Exception MosqErr) : Prop :=
  ∃ code, verdict = .ok code ∧ (url = [] → code = .pluginDefer) ∧
    (url ≠ [] → (Granted reader net url client data → code = .success) ∧
      (¬ Granted reader net url client data → code = .auth ∨ code = .aclDenied))

/-- A URL is configured, and where the service is asked and replies, the reader gets through the
reply and leaves an object or null as its root. -/
structure Handled (reader : Reader) (net : Network) (url client : Bytes)
    (data : Bytes → Except Exception JsonDocument) : Prop where
  url_ne_nil : url ≠ []
  reply : bytes "mosqcluster" <+: cString client ∨
    ∀ d content, data (cString client) = .ok d → (wrapper net).Replies net url d content →
      JsonDocument.LeavesFields reader content

variable {reader : Reader} {net : Network} {url client : Bytes}
  {data : Bytes → Except Exception JsonDocument} {d : JsonDocument}

theorem not_rightVerdict_error {e : Exception} :
    ¬ RightVerdict reader net url client data (.error e) := by
  rintro ⟨code, hcode, -⟩
  cases hcode

/-- A denial is right where a configured check is not granted. -/
theorem rightVerdict_of_aclDenied (hurl : url ≠ []) (h : ¬ Granted reader net url client data) :
    RightVerdict reader net url client data (.ok .aclDenied) :=
  ⟨_, rfl, fun h => absurd h hurl, fun _ => ⟨fun hgranted => absurd hgranted h, fun _ => .inr rfl⟩⟩

theorem rightVerdict_of_success (hurl : url ≠ []) (h : Granted reader net url client data) :
    RightVerdict reader net url client data (.ok .success) :=
  ⟨_, rfl, fun h => absurd h hurl, fun _ => ⟨fun _ => rfl, fun hnot => absurd h hnot⟩⟩

/-- The verdict of a check is right if and only if the check is handled. -/
theorem rightVerdict_check_iff (hdata : data (cString client) = .ok d) :
    RightVerdict reader net url client data (mosqErr <$> check reader net url client data) ↔
      Handled reader net url client data := by
  by_cases hurl : url = []
  · subst hurl
    -- `Defer` is taken for a success
    refine iff_of_false ?_ fun h => h.url_ne_nil rfl
    rintro ⟨code, hcode, hdefer, -⟩
    rw [check_of_empty] at hcode
    cases hcode
    cases hdefer rfl
  by_cases hclient : bytes "mosqcluster" <+: cString client
  · rw [check_of_clusterClient hurl hclient]
    exact iff_of_true (rightVerdict_of_success hurl (.inl hclient)) ⟨hurl, .inl hclient⟩
  rw [check_of_not_clusterClient hurl hclient hdata]
  by_cases hroot : ∀ content, (wrapper net).Replies net url d content →
      JsonDocument.LeavesFields reader content
  · refine iff_of_true ?_ ⟨hurl, .inr fun d' content hdata' hreply => ?_⟩
    · -- A reply decides by its code, and no reply is a denial.
      by_cases hreplies : ∃ content, (wrapper net).Replies net url d content
      · obtain ⟨content, hreply⟩ := hreplies
        obtain ⟨reply, hread, hfields⟩ := hroot content hreply
        have hcheck : JsonDocument.ofText reader content >>= checkReply = checkReply reply := by
          rw [hread]
          rfl
        rw [HttpWrapper.ask_of_reply hreply, hcheck, checkReply_of_root hfields]
        by_cases hcode : (reply.root.member? (bytes "code")).bind Value.int? = some 0
        · rw [if_pos hcode]
          exact rightVerdict_of_success hurl (.inr ⟨d, content, reply, hdata, hreply, hread, hcode⟩)
        · rw [if_neg hcode]
          refine rightVerdict_of_aclDenied hurl (not_or.mpr ⟨hclient, ?_⟩)
          rintro ⟨d', content', reply', hdata', hreply', hread', hcode'⟩
          obtain rfl := Except.ok.inj (hdata.symm.trans hdata')
          rw [← hreply.unique hreply', hread] at hread'
          obtain rfl := Except.ok.inj hread'
          exact hcode hcode'
      · rw [HttpWrapper.ask_of_no_reply rfl checkReply_empty
          fun content hreply => hreplies ⟨content, hreply⟩]
        refine rightVerdict_of_aclDenied hurl (not_or.mpr ⟨hclient, ?_⟩)
        rintro ⟨d', content, -, hdata', hreply, -⟩
        obtain rfl := Except.ok.inj (hdata.symm.trans hdata')
        exact hreplies ⟨content, hreply⟩
    · obtain rfl := Except.ok.inj (hdata.symm.trans hdata')
      exact hroot content hreply
  · -- the reader or the look-up in the reply raises
    refine iff_of_false ?_ fun h => hroot fun content hreply => ?_
    · rintro ⟨code, hcode, -⟩
      refine hroot ((HttpWrapper.ask_isOk_iff rfl checkReply_empty
        fun _ => checkReply_isOk_iff).mp ?_)
      cases hask : (wrapper net).ask reader net url d checkReply .failed with
      | ok code' => rfl
      | error e =>
        rw [hask] at hcode
        cases hcode
    · exact h.reply.resolve_left hclient d content hdata hreply

/-- The data of a user, for the strings of the broker. -/
def unpwdData (ctx : AuthPluginContext) (username password : Option Bytes) (clientid : Bytes) :
    Except Exception JsonDocument := do
  ctx.userData (← stdString username) (← stdString password) clientid

/-- The data of a topic, for the strings of the broker. -/
def topicData (ctx : AuthPluginContext) (access : Int32) (topic : Option Bytes)
    (clientid : Bytes) : Except Exception JsonDocument := do
  ctx.aclData access (← stdString topic) clientid

/-- The verdicts of both functions are right if and only if the check is handled and no string is
`NULL`. -/
theorem rightVerdict_iff (reader : Reader) (net : Network) (ctx : AuthPluginContext)
    (client : Bytes) :
    (∀ username password : Option Bytes,
      RightVerdict reader net ctx.checkuserUrl client (unpwdData ctx username password)
          (mosquittoAuthUnpwdCheck reader net ctx client username password) ↔
        username.isSome ∧ password.isSome ∧
          Handled reader net ctx.checkuserUrl client (unpwdData ctx username password)) ∧
    (∀ (access : Int32) (topic : Option Bytes),
      RightVerdict reader net ctx.checkaclUrl client (topicData ctx access topic)
          (mosquittoAuthAclCheck reader net ctx client access topic) ↔
        topic.isSome ∧ Handled reader net ctx.checkaclUrl client (topicData ctx access topic)) := by
  refine ⟨fun username password => ?_, fun access topic => ?_⟩
  · cases username with
    | none => exact iff_of_false not_rightVerdict_error fun h => by cases h.1
    | some username =>
      cases password with
      | none => exact iff_of_false not_rightVerdict_error fun h => by cases h.2.1
      | some password =>
        obtain ⟨d, hdata⟩ := exists_userData_eq ctx (cString username) (cString password)
          (cString client)
        rw [and_iff_right Option.isSome_some, and_iff_right Option.isSome_some]
        exact rightVerdict_check_iff hdata
  · cases topic with
    | none => exact iff_of_false not_rightVerdict_error fun h => by cases h.1
    | some topic =>
      obtain ⟨d, hdata⟩ := exists_aclData_eq ctx access (cString topic) (cString client)
      rw [and_iff_right Option.isSome_some]
      exact rightVerdict_check_iff hdata

/-- Without any configuration, every user is let in. -/
theorem not_rightVerdict_no_config : ¬ ∀ (reader : Reader) (net : Network) (ctx : AuthPluginContext)
    (client : Bytes) (username password : Option Bytes),
    RightVerdict reader net ctx.checkuserUrl client (unpwdData ctx username password)
      (mosquittoAuthUnpwdCheck reader net ctx client username password) := by
  intro h
  -- no transfer is made
  obtain ⟨code, hcode, hdefer, -⟩ := h (.only [] .null) ⟨0, fun _ _ _ => .failed⟩
    (loadConfig .new) (bytes "c") (some (bytes "u")) (some (bytes "p"))
  have hurl : (loadConfig .new).checkuserUrl = [] := conf.Value.get_empty _
  replace hcode : mosqErr <$> check (.only [] .null) ⟨0, fun _ _ _ => .failed⟩
      (loadConfig .new).checkuserUrl (bytes "c")
      ((loadConfig .new).userData (bytes "u") (bytes "p")) = .ok code := hcode
  rw [hurl, check_of_empty] at hcode
  cases hcode
  cases hdefer hurl

end MosqCluster
