import Janus.HashExact
import Janus.Pinning

/-!
# Definition hashes and outbound requests

The hash covers the method and the path of an endpoint, but neither the body template
nor the connection it belongs to. Rows with equal hashes send the same requests as far
as those two agree; a template that the method does not use does not count.
-/

namespace Janus.Server

set_option autoImplicit false

open Storage Gateway

/-- The vault entry whose secret the requests of a connection carry. -/
def vaultRef (conn : APIConnection) : Option Str :=
  if conn.authType ≠ "none".toList && conn.authSecretRef ≠ [] then some conn.authSecretRef else none

/-- The two rows with their connections send the same request for all arguments. -/
def SameOutbound (ep ep' : APIEndpoint) (conn conn' : APIConnection) : Prop :=
  vaultRef conn = vaultRef conn' ∧
    ∀ (env : CallEnv) (vault : Vault.Provider) (args : Option Params) (c : Client),
      (executeCall env vault conn ep args c).request = (executeCall env vault conn' ep' args c).request

/-- Of an endpoint a call reads the path, the method and, where there is a body, the template. -/
theorem executeCall_congr {ep ep' : APIEndpoint} (hpath : ep.path = ep'.path)
    (hmethod : ep.method = ep'.method)
    (htemplate : ep.template = ep'.template ∨ ep.method = "GET".toList ∨ ep.method = "DELETE".toList)
    (env : CallEnv) (vault : Vault.Provider) (conn : APIConnection) (args : Option Params) (c : Client) :
    executeCall env vault conn ep args c = executeCall env vault conn ep' args c := by
  have hbody : renderBody ep args = renderBody ep' args := by
    unfold renderBody
    rw [← hmethod]
    rcases htemplate with ht | hget | hdelete
    · rw [ht]
    · simp [hget]
    · simp [hdelete]
  have hurl : resolveURL c.egress env conn ep (args.getD []) =
      resolveURL c.egress env conn ep' (args.getD []) := by
    simp only [resolveURL, withQuery, hpath, hmethod]
  have hkey (u : Url.URL) : cacheKey ep u = cacheKey ep' u := by
    rw [cacheKey, cacheKey, hmethod]
  have hfetch (u : Url.URL) : fetch env vault conn ep args u c = fetch env vault conn ep' args u c := by
    simp only [fetch, newRequest, hmethod, hbody, hkey]
  simp only [executeCall, hurl, cachedBody, hkey, hmethod, hfetch]

/-- In two databases with the same connections, rows with one hash, on one connection and
with one template send the same requests. -/
theorem sameOutbound_of_definitionHash (foreignKeys foreignKeys' : Bool) (ops ops' : List DbOp)
    {ep ep' : APIEndpoint} {conn conn' : APIConnection}
    (hconns : (runOps ops (.empty foreignKeys)).connections =
      (runOps ops' (.empty foreignKeys')).connections)
    (hep : ep ∈ (runOps ops (.empty foreignKeys)).endpoints)
    (hep' : ep' ∈ (runOps ops' (.empty foreignKeys')).endpoints)
    (hhash : ep.definitionHash = ep'.definitionHash)
    (hfree : ¬ ToolIntegrity.Collide (DB.savedToolDef ep) (DB.savedToolDef ep'))
    (hconn : (runOps ops (.empty foreignKeys)).connections.find ep.connectionID = some conn)
    (hconn' : (runOps ops' (.empty foreignKeys')).connections.find ep'.connectionID = some conn')
    (hid : ep.connectionID = ep'.connectionID)
    (htemplate : ep.template = ep'.template ∨ ep.method = "GET".toList ∨ ep.method = "DELETE".toList) :
    SameOutbound ep ep' conn conn' := by
  have hpin := pinnedRows_runOps ops (pinnedRows_empty foreignKeys) ep hep
  have hpin' := pinnedRows_runOps ops' (pinnedRows_empty foreignKeys') ep' hep'
  rw [hpin, hpin', ToolIntegrity.hash_eq_iff_text hfree, ToolIntegrity.text_eq_iff] at hhash
  obtain ⟨_, _, hmethod, hpath, _⟩ := hhash
  have hsame : conn = conn' := by
    rw [hconns, hid, hconn'] at hconn
    exact (Option.some.inj hconn).symm
  refine ⟨by rw [hsame], ?_⟩
  intro env vault args c
  rw [hsame, executeCall_congr hpath hmethod htemplate]

def orderConn (id baseURL : String) : APIConnection :=
  ⟨id.toList, id.toList, [], baseURL.toList, "none".toList, [], true, []⟩

def orderEndpoint (method connectionID template : String) : APIEndpoint :=
  ⟨['e'], connectionID.toList, ['t'], [], ['/'], method.toList, [], template.toList, [], 0⟩

/-- The row that is stored for the tool. -/
def orderRow (method connectionID template : String) : APIEndpoint :=
  DB.pinned (.empty false) (orderEndpoint method connectionID template)

/-- The tool is saved on the first connection with the body `1`, and then edited. -/
def orderDB (method connectionID template : String) : DB :=
  runOps [.saveConnection false (orderConn "1" "http://a"),
    .saveConnection false (orderConn "2" "http://b"),
    .saveEndpoint false (orderEndpoint method "1" "1"),
    .saveEndpoint false (orderEndpoint method connectionID template)] (.empty false)

/-- A save into a table that holds at most the row of the endpoint. -/
theorem apply_saveEndpoint (db : DB) (hfk : db.foreignKeys = false) (ep : APIEndpoint)
    (h : ∀ r ∈ db.endpoints, r.id = ep.id) (hone : db.endpoints.rows.length ≤ 1) :
    ∃ t, DbOp.apply db (.saveEndpoint false ep) = { db with endpoints := t } ∧
      t.rows = [db.pinned ep] := by
  have hclash : ¬ db.endpoints.Clash (db.pinned ep) := by
    rintro ⟨r, hr, hne, _⟩
    exact hne (h r hr)
  have hput : Table.put APIEndpoint.id (db.pinned ep) db.endpoints.rows = [db.pinned ep] := by
    match hrows : db.endpoints.rows with
    | [] => rfl
    | [old] =>
      have hid : old.id = (db.pinned ep).id := h old (by simp [Table.mem_def, hrows])
      rw [Table.put, if_pos hid]
    | _ :: _ :: _ =>
      rw [hrows] at hone
      simp at hone
  cases hu : db.endpoints.upsert (db.pinned ep) with
  | none => exact absurd (Table.upsert_eq_none.mp hu) hclash
  | some t =>
    have hsave : db.saveEndpoint false ep = .ok { db with endpoints := t } := by
      simp [DB.saveEndpoint, hfk, hu]
    refine ⟨t, ?_, (Table.upsert_eq_some.mp hu).2.trans hput⟩
    simp only [DbOp.apply, DbOp.exec, hsave]

/-- A save that finds a row with the hash of its own definition keeps the version. -/
theorem pinned_again {db : DB} {ep old : APIEndpoint} (h : db.endpoints.find ep.id = some old)
    (hhash : old.definitionHash = ToolIntegrity.hash (DB.savedToolDef ep)) (hversion : old.version = 1) :
    db.pinned ep = (DB.empty false).pinned ep := by
  unfold DB.pinned
  rw [h]
  dsimp only
  rw [if_neg (not_not.mpr hhash), hversion]
  rfl

/-- The two connections, and nothing else. -/
def orderConns : DB :=
  runOps [.saveConnection false (orderConn "1" "http://a"),
    .saveConnection false (orderConn "2" "http://b")] (.empty false)

theorem orderDB_eq (method connectionID template : String) :
    ∃ t, orderDB method connectionID template = { orderConns with endpoints := t } ∧
      t.rows = [orderRow method connectionID template] := by
  obtain ⟨t, ht, hrows⟩ := apply_saveEndpoint orderConns rfl (orderEndpoint method "1" "1")
    (fun r hr => by cases hr) (Nat.zero_le 1)
  have hfind : t.find ['e'] = some (orderRow method "1" "1") := by
    rw [Table.find, hrows]
    rfl
  have hids : ∀ r ∈ t, r.id = ['e'] := by
    intro r hr
    rw [Table.mem_def, hrows] at hr
    rw [List.mem_singleton.mp hr]
    rfl
  have hone : t.rows.length ≤ 1 := by
    rw [hrows]
    exact Nat.le_refl 1
  obtain ⟨t', ht', hrows'⟩ := apply_saveEndpoint { orderConns with endpoints := t } rfl
    (orderEndpoint method connectionID template) hids hone
  refine ⟨t', ?_, ?_⟩
  · rw [← ht', ← ht]
    rfl
  · rw [hrows']
    exact congrArg (fun row => [row]) (pinned_again hfind rfl rfl)

theorem connections_orderDB (method connectionID template : String) :
    (orderDB method connectionID template).connections = orderConns.connections := by
  obtain ⟨t, ht, _⟩ := orderDB_eq method connectionID template
  rw [ht]

theorem mem_orderDB (method connectionID template : String) :
    orderRow method connectionID template ∈ (orderDB method connectionID template).endpoints := by
  obtain ⟨t, ht, hrows⟩ := orderDB_eq method connectionID template
  rw [ht, Table.mem_def, hrows]
  exact List.mem_singleton_self _

/-- The hash covers neither the template nor the connection. -/
theorem orderRow_free (method connectionID template connectionID' template' : String) :
    (orderRow method connectionID template).definitionHash =
        (orderRow method connectionID' template').definitionHash ∧
      ¬ ToolIntegrity.Collide (DB.savedToolDef (orderRow method connectionID template))
        (DB.savedToolDef (orderRow method connectionID' template')) :=
  ⟨rfl, fun h => h.1 rfl⟩

/-- A GET tool has no body, so its template does not matter. -/
theorem orderDB_get_sameOutbound :
    SameOutbound (orderRow "GET" "1" "1") (orderRow "GET" "1" "2") (orderConn "1" "http://a")
      (orderConn "1" "http://a") := by
  have hconn (template : String) : (orderDB "GET" "1" template).connections.find ['1'] =
      some (orderConn "1" "http://a") := by
    rw [connections_orderDB]
    decide
  exact sameOutbound_of_definitionHash false false _ _
    ((connections_orderDB "GET" "1" "1").trans (connections_orderDB "GET" "1" "2").symm)
    (mem_orderDB "GET" "1" "1") (mem_orderDB "GET" "1" "2") (orderRow_free _ _ _ _ _).1
    (orderRow_free _ _ _ _ _).2 (hconn "1") (hconn "2") rfl (Or.inr (Or.inl rfl))

def orderEnv : CallEnv := ⟨0, 0, fun _ => .ok [], none, fun _ => none, fun _ => .reply 200 []⟩

def orderClient : Client := ⟨⟨[], true⟩, .new 0, .new 0, 0⟩

/-- The edit keeps the hash and all connections, and changes what the tool sends. -/
def SilentEdit (connectionID baseURL template : String) : Prop :=
  (orderDB "POST" "1" "1").connections = (orderDB "POST" connectionID template).connections ∧
    (orderDB "POST" "1" "1").connections.find ['1'] = some (orderConn "1" "http://a") ∧
    (orderDB "POST" connectionID template).connections.find connectionID.toList =
      some (orderConn connectionID baseURL) ∧
    orderRow "POST" "1" "1" ∈ (orderDB "POST" "1" "1").endpoints ∧
    orderRow "POST" connectionID template ∈ (orderDB "POST" connectionID template).endpoints ∧
    (orderRow "POST" "1" "1").definitionHash = (orderRow "POST" connectionID template).definitionHash ∧
    ¬ SameOutbound (orderRow "POST" "1" "1") (orderRow "POST" connectionID template)
      (orderConn "1" "http://a") (orderConn connectionID baseURL)

theorem not_sameOutbound {ep ep' : APIEndpoint} {conn conn' : APIConnection}
    (h : (executeCall orderEnv (.local []) conn ep none orderClient).request ≠
      (executeCall orderEnv (.local []) conn' ep' none orderClient).request) :
    ¬ SameOutbound ep ep' conn conn' :=
  fun hs => h (hs.2 orderEnv (.local []) none orderClient)

theorem silentEdit {connectionID baseURL template : String}
    (hconn : orderConns.connections.find connectionID.toList = some (orderConn connectionID baseURL))
    (hsent : (executeCall orderEnv (.local []) (orderConn "1" "http://a") (orderRow "POST" "1" "1") none
        orderClient).request ≠
      (executeCall orderEnv (.local []) (orderConn connectionID baseURL)
        (orderRow "POST" connectionID template) none orderClient).request) :
    SilentEdit connectionID baseURL template := by
  refine ⟨?_, ?_, ?_, mem_orderDB _ _ _, mem_orderDB _ _ _, rfl, not_sameOutbound hsent⟩
  · rw [connections_orderDB, connections_orderDB]
  · rw [connections_orderDB]
    decide
  · rw [connections_orderDB]
    exact hconn

/-- Another body template, or another connection, under the same hash. -/
theorem orderDB_silentEdits : SilentEdit "1" "http://a" "2" ∧ SilentEdit "2" "http://b" "1" :=
  ⟨silentEdit (by decide) (by decide +kernel), silentEdit (by decide) (by decide +kernel)⟩

end Janus.Server
