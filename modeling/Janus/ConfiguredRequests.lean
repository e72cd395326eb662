import Janus.CallTarget
import Janus.ClientRoster
import Janus.Lib.Run
import Janus.SecretRotation

/-!
# Where requests come from

A tool call sends a request to the base URL of a connection with credentials from the vault.
Whoever calls, these were arranged by an administrator: by a request to the portal in a session
that goes back to a login, or by a call of an admin tool under a token of that role
(`request_arranged`).
-/

namespace Janus.Server

set_option autoImplicit false

open Storage Gateway

variable {w : World}

/-- A request that is sent, with the rows that it is made from. -/
structure Outgoing where
  conn : APIConnection
  ep : APIEndpoint
  request : Gateway.Request

/-- The request that the handling of a message sends. -/
def Taken.outgoing (m : Taken) (srv : MCPServer) : Option Outgoing :=
  match invoked m.env m.who.role m.who.scopes m.req srv with
  | some (call, .endpoint ep conn) =>
    (executeCall m.env.call srv.vault conn ep (redactArgs srv.redactor call.arguments).1
      srv.client).request.map fun req => ⟨conn, ep, req⟩
  | some (_, .admin _) | none => none

def outgoing (w : World) (a : Action) : Option Outgoing := (taken w a).bind fun m => m.outgoing w.srv

theorem mem_of_enabledConn {conns : List APIConnection} {ep : APIEndpoint} {conn : APIConnection}
    (h : enabledConn conns ep = some conn) :
    conn ∈ conns ∧ conn.id = ep.connectionID ∧ conn.enabled = true := by
  obtain ⟨hlookup, henabled⟩ := Option.filter_eq_some_iff.mp h
  obtain ⟨c, hc, heq⟩ := List.mem_map.mp (mem_of_lookup hlookup)
  obtain ⟨hid, rfl⟩ := Prod.mk.inj heq
  exact ⟨hc, hid, henabled⟩

/-- A request is made from rows of the tables. -/
theorem outgoing_cases {a : Action} {o : Outgoing} (h : outgoing w a = some o) :
    o.conn ∈ w.srv.db.getConnections ∧ o.ep ∈ w.srv.db.getAllEndpoints ∧
      ∃ env args, (executeCall env w.srv.vault o.conn o.ep args w.srv.client).request = some o.request := by
  obtain ⟨m, _, hsent⟩ := Option.bind_eq_some_iff.mp h
  unfold Taken.outgoing at hsent
  split at hsent
  · rename_i call ep conn hinvoked
    obtain ⟨req, hreq, rfl⟩ := Option.map_eq_some_iff.mp hsent
    obtain ⟨_, hdispatch⟩ := invoked_eq_some.mp hinvoked
    rcases dispatch_ok hdispatch with ⟨t, htarget, _⟩ | ⟨ep', conn', htarget, hep, hconn, _⟩
    · cases htarget
    · cases htarget
      exact ⟨(mem_of_enabledConn hconn).1, hep, m.env.call, _, hreq⟩
  · cases hsent
  · cases hsent

/-- What is in the secret cache after a message was there before, or is in the vault. -/
theorem secretCache_handleIncoming (srv : MCPServer) (r : Incoming) {entry : Str × Cache.Entry Str}
    (h : entry ∈ (handleIncoming srv r).client.secretCache.m) :
    entry ∈ srv.client.secretCache.m ∨ srv.vault.getSecret none entry.1 = .ok entry.2.value := by
  have hlog (e : AuditLogEntry) (srv : MCPServer) : (logAuditAsync e srv).client = srv.client := by
    unfold logAuditAsync
    split <;> rfl
  unfold handleIncoming at h
  cases hinvoked : invoked r.env r.role r.scopes r.req srv with
  | none =>
    rcases handleRequest_not_invoked r.identity hinvoked with hsame | ⟨e, hsame⟩
    · rw [hsame] at h
      exact .inl h
    · rw [hsame, hlog] at h
      exact .inl h
  | some p =>
    obtain ⟨call, target⟩ := p
    obtain ⟨e, hsame⟩ := handleRequest_invoked r.identity hinvoked
    rw [hsame, hlog] at h
    cases target with
    | admin tool =>
      have hclient : (runTarget r.env (.admin tool) (redactArgs srv.redactor call.arguments).1 srv).2.client =
          srv.client := by
        unfold runTarget handleAdminTool
        cases tool with
        | addConnection => dsimp only; split <;> [rfl; (split <;> rfl)]
        | addEndpoint => dsimp only; split <;> [rfl; (split <;> rfl)]
        | registerVaultSecret => dsimp only; split <;> [rfl; (split <;> rfl)]
      rw [hclient] at h
      exact .inl h
    | endpoint ep conn =>
      dsimp only [runTarget] at h
      rcases executeCall_secretCache r.env.call srv.vault conn ep
        (redactArgs srv.redactor call.arguments).1 srv.client with hcache | ⟨value, hvalue, hcache⟩
      · rw [hcache] at h
        exact .inl h
      · rw [hcache] at h
        rcases Cache.TTLCache.eq_or_mem_of_mem_set h with rfl | hold
        · exact .inr hvalue
        · exact .inl hold

end Janus.Server

namespace Janus.GatewayProcess

set_option autoImplicit false

open PortalServer Storage
open Gateway (SameTarget credentialOf executeCall)
open PortalDeletes (Stores)
open Server (World Identity Outgoing Taken taken outgoing extractToken resolveAuth verifyGatewayToken)

/-- Who presents the token is an administrator: it is the master token, or that of a client that
an administrator of the portal created with the role. -/
inductive Administrator (p : Portal) (x : Process) (token : Str) (who : Identity) : Prop
  | master (verified : verifyGatewayToken x.world.gatewayToken token = true)
      (identity : who = masterIdentity)
  | client (e : Exchanged) (t : ClientToken) (g : Grant) (answered : e ∈ x.answered)
      (created : Created p e t) (token : DB.hashToken t.token = DB.hashToken token)
      (enabled : t.enabled = true) (role : t.clientRole = "admin".toList)
      (identity : who = clientIdentity t) (admin : FromLogin p x.answered e g)

section

variable {p : Portal} {w : World} {x x' : Process} {ev : Event} {evs : List Event}

theorem FromLogin.mono {es es' : List Exchanged} {e : Exchanged} {g : Grant} (h : FromLogin p es e g)
    (hsub : es ⊆ es') : FromLogin p es' e g where
  warranted := h.warranted.mono hsub
  login := by
    obtain ⟨e', he', horigin⟩ := h.login
    exact ⟨e', hsub he', horigin⟩

theorem Administrator.mono {token token' : Str} {who : Identity} (h : Administrator p x token who)
    (hgateway : x'.world.gatewayToken = x.world.gatewayToken) (hsub : x.answered ⊆ x'.answered)
    (htoken : DB.hashToken token' = DB.hashToken token) : Administrator p x' token' who := by
  cases h with
  | master verified identity =>
    refine .master ?_ identity
    unfold verifyGatewayToken at verified ⊢
    unfold DB.hashToken at htoken
    rw [hgateway, htoken]
    exact verified
  | client e t g answered created token enabled role identity admin =>
    exact .client e t g (hsub answered) created (token.trans htoken.symm) enabled role identity
      (admin.mono hsub)

theorem administrator_of_resolveAuth (h : Traceable p x) {readFails : Bool} {token : Str}
    {who : Identity} (hres : resolveAuth readFails token x.world = some who)
    (hrole : who.role = "admin".toList) : Administrator p x token who := by
  have htraced : Traced p x ⟨token, readFails, who, []⟩ := traced_of_resolveAuth h.sound h.roster hres
  cases htraced with
  | master verified identity => exact .master verified identity
  | issuer vouched =>
    obtain ⟨claims, _, hwho⟩ := Option.map_eq_some_iff.mp vouched
    have huser : who.role = "user".toList := by
      rw [← show _ = who from hwho]
    rw [huser] at hrole
    exact absurd hrole (by decide)
  | client e t g answered created token enabled identity admin =>
    have hwho : who = clientIdentity t := identity
    have hclient : t.clientRole = "admin".toList := by
      rw [hwho] at hrole
      exact hrole
    exact .client e t g answered created token enabled hclient hwho admin

/-- A process whose administrators are traced, in open sessions too. -/
structure Guarded (p : Portal) (x : Process) : Prop where
  traceable : Traceable p x
  sessions : ∀ id session, lookup id x.world.sessions = some session →
    session.identity.role = "admin".toList → ∀ token, DB.hashToken token = session.tokenHash →
      Administrator p x token session.identity

theorem Guarded.act (hlib : p.sessions.Lawful) (h : Guarded p x) (hev : Admitted p x ev) :
    Guarded p (x.act p ev).1 where
  traceable := ⟨h.traceable.sound.act hlib hev, rosterOf_act hev.portalWrites h.traceable.roster⟩
  sessions := by
    intro id session hsession hrole token htoken
    cases ev with
    | logged l => exact (h.sessions id session hsession hrole token htoken).mono rfl (List.Subset.refl _) rfl
    | portal a =>
      exact (h.sessions id session hsession hrole token htoken).mono rfl (List.subset_append_left _ _) rfl
    | mcp a =>
      have hgateway := Server.step_gatewayToken x.world a
      rcases Server.step_sessions hsession with hold | ⟨token', readFails, hres, hhash⟩
      · exact (h.sessions id session hold hrole token htoken).mono hgateway (List.Subset.refl _) rfl
      · exact (administrator_of_resolveAuth h.traceable hres hrole).mono hgateway (List.Subset.refl _)
          (htoken.trans hhash)

theorem guarded_booted (hempty : w.srv.db.tokens = .empty) (hsessions : w.sessions = []) :
    Guarded p (booted w) where
  traceable := ⟨sound_booted p w, by
    unfold rosterOf booted
    dsimp only
    rw [hempty]
    rfl⟩
  sessions := by
    intro id session hsession
    have hnone : lookup id w.sessions = none := by
      rw [hsessions]
      rfl
    cases hnone.symm.trans hsession

/-- The event is a request of an administrator to the portal, or a message under the token of an
administrator. -/
inductive ByAdministrator (p : Portal) (x : Process) : Event → Prop
  | portal (a : PortalServer.Action) (response : Response) (grant : Option Grant) (g : Grant)
      (answered : serve p a.env a.request x.system.state =
        ((serve p a.env a.request x.system.state).1, response, grant))
      (admin : FromLogin p x.answered ⟨a.request, a.env.now, response, grant⟩ g) :
      ByAdministrator p x (.portal a)
  | mcp (a : Server.Action) (m : Taken) (taken : taken x.world a = some m)
      (administrator : Administrator p x m.token m.who) : ByAdministrator p x (.mcp a)

def Process.stores (x : Process) : Stores := x.system.state.stores

theorem administrator_of_taken (h : Guarded p x) {a : Server.Action} {m : Taken}
    (hm : taken x.world a = some m) (hrole : m.who.role = "admin".toList) :
    Administrator p x m.token m.who := by
  rcases Server.taken_cases hm with hres | ⟨id, session, hsession, hwho, htoken⟩
  · exact administrator_of_resolveAuth h.traceable hres hrole
  · rw [← hwho] at hrole ⊢
    exact h.sessions id session hsession hrole m.token htoken

/-- What is stored changes for administrators only. -/
theorem byAdministrator_of_stores (hlib : p.sessions.Lawful) (h : Guarded p x) (hev : Admitted p x ev)
    (hchange : (x.act p ev).1.stores ≠ x.stores) : ByAdministrator p x ev := by
  cases ev with
  | logged l => exact absurd rfl hchange
  | portal a =>
    have hrec := h.traceable.sound.recorded
    obtain ⟨_, g, hg, hrole⟩ := stores_act hlib hrec hev.unforged hchange
    exact .portal a _ _ g rfl ⟨⟨hg.granted, hg.token, hg.live, hrole⟩, admin_origin hrec hg.granted hrole⟩
  | mcp a =>
    have hsrv := Server.step_srv hev x.world
    cases hm : taken x.world a with
    | none =>
      rw [hm] at hsrv
      have hsame : (x.act p (.mcp a)).1.stores = x.stores :=
        congrArg (fun srv : Server.MCPServer => Stores.mk srv.vault srv.db) hsrv
      exact absurd hsame hchange
    | some m =>
      refine .mcp a m hm (administrator_of_taken h hm ?_)
      by_contra hrole
      rw [hm] at hsrv
      obtain ⟨hdb, hvault⟩ := Server.sameConfig_handleIncoming (r := m.incoming) hrole x.world.srv
      have hsame : (x.act p (.mcp a)).1.stores = x.stores := by
        have hstores := congrArg (fun srv : Server.MCPServer => Stores.mk srv.vault srv.db) hsrv
        exact hstores.trans (congrArg₂ Stores.mk hvault hdb)
      exact hchange hsame

/-- The process after a run. -/
def ran (p : Portal) (w : World) (evs : List Event) : Process := Run.final (Process.act p) (booted w) evs

/-- It was so at the start of the run, or an administrator has made it so. -/
def Arranged (p : Portal) (w : World) (evs : List Event) (holds : Stores → Prop) : Prop :=
  holds (booted w).stores ∨ ∃ front ev back, evs = front ++ ev :: back ∧
    ByAdministrator p (ran p w front) ev ∧ ¬ holds (ran p w front).stores ∧
      holds (ran p w (front ++ [ev])).stores

theorem Arranged.later {holds : Stores → Prop} {front back : List Event}
    (h : Arranged p w front holds) (hevs : evs = front ++ back) : Arranged p w evs holds := by
  rcases h with hstart | ⟨first, ev, rest, rfl, hmade⟩
  · exact .inl hstart
  · refine .inr ⟨first, ev, rest ++ back, ?_, hmade⟩
    rw [hevs, List.append_assoc, List.cons_append]

/-- Whatever holds of what is stored was arranged. -/
theorem arranged (hlib : p.sessions.Lawful) (hempty : w.srv.db.tokens = .empty)
    (hsessions : w.sessions = []) (hevs : Run.Along (Process.act p) (Admitted p) (booted w) evs)
    {holds : Stores → Prop} (h : holds (ran p w evs).stores) : Arranged p w evs holds := by
  have hstep (x : Process) (ev : Event) (_ : Unit) (hx : Guarded p x) (hev : Admitted p x ev)
      (hafter : holds (x.act p ev).1.stores) : holds x.stores ∨
        (ByAdministrator p x ev ∧ ¬ holds x.stores ∧ holds (x.act p ev).1.stores) := by
    by_cases hbefore : holds x.stores
    · exact .inl hbefore
    · refine .inr ⟨byAdministrator_of_stores hlib hx hev fun hsame => hbefore ?_, hbefore, hafter⟩
      rw [← hsame]
      exact hafter
  rcases Run.origin (M := fun x (_ : Unit) => holds x.stores) (fun _ _ hx hev => hx.act hlib hev) hstep
    evs (booted w) (guarded_booted hempty hsessions) hevs (x := ()) h with hstart | ⟨front, ev, back, rfl, hmade⟩
  · exact .inl hstart
  · refine .inr ⟨front, ev, back, rfl, hmade.1, hmade.2.1, ?_⟩
    unfold ran
    rw [Run.final_append]
    exact hmade.2.2

/-- The row of the connection, the row of the endpoint and the secret of a request were arranged,
and the request goes where the base URL of the connection says. -/
structure FromRows (p : Portal) (w : World) (evs : List Event) (o : Outgoing) : Prop where
  connection : Arranged p w evs fun s => o.conn ∈ s.db.getConnections
  endpoint : Arranged p w evs fun s => o.ep ∈ s.db.getAllEndpoints
  method : Gateway.requestMethod o.ep.method = some o.request.method
  target : ∀ base, Url.parse o.conn.baseURL = some base → Url.IsWeb base.scheme → base.host ≠ [] →
    ∃ created, o.request.requestURL = some created ∧ SameTarget created base
  credential : ((o.conn.authType = "none".toList ∨ o.conn.authSecretRef = []) ∧
      o.request.credential = .none) ∨
    ∃ value, credentialOf o.conn.authType value = .ok o.request.credential ∧
      Arranged p w evs fun s => s.vault.getSecret none o.conn.authSecretRef = .ok value

/-- A secret in the cache of the client was once in the vault. -/
theorem cached_held (hcache : w.srv.client.secretCache.m = [])
    (hevs : Run.Along (Process.act p) (Admitted p) (booted w) evs) {entry : Str × Cache.Entry Str}
    (h : entry ∈ (ran p w evs).world.srv.client.secretCache.m) : ∃ front back, evs = front ++ back ∧
      (ran p w front).stores.vault.getSecret none entry.1 = .ok entry.2.value := by
  have hstep (x : Process) (ev : Event) (entry : Str × Cache.Entry Str) (_ : True) (hev : Admitted p x ev)
      (hafter : entry ∈ (x.act p ev).1.world.srv.client.secretCache.m) :
      entry ∈ x.world.srv.client.secretCache.m ∨
        x.stores.vault.getSecret none entry.1 = .ok entry.2.value := by
    cases ev with
    | portal a => exact .inl hafter
    | logged l => exact .inl hafter
    | mcp a =>
      have hsrv := Server.step_srv hev x.world
      have hmem : entry ∈ (Server.step x.world a).1.srv.client.secretCache.m := hafter
      rw [hsrv] at hmem
      cases hm : taken x.world a with
      | none =>
        rw [hm] at hmem
        exact .inl hmem
      | some m =>
        rw [hm] at hmem
        exact Server.secretCache_handleIncoming x.world.srv m.incoming hmem
  have hinv (x : Process) (ev : Event) (_ : True) (_ : Admitted p x ev) : True := trivial
  rcases Run.origin (M := fun x entry => entry ∈ x.world.srv.client.secretCache.m) hinv hstep evs
    (booted w) trivial hevs h with hstart | ⟨front, ev, back, rfl, hheld⟩
  · have hnone : entry ∉ (booted w).world.srv.client.secretCache.m := by
      unfold booted
      rw [hcache]
      exact List.not_mem_nil
    exact absurd hstart hnone
  · exact ⟨front, ev :: back, rfl, hheld⟩

/-- In every run, whoever makes a call, the request that it sends is made from a connection, an
endpoint and a secret that were there at the start or that an administrator has put there, and
goes to the scheme, the host and the port of the base URL of that connection. -/
theorem request_arranged (hlib : p.sessions.Lawful) (w : World) (hempty : w.srv.db.tokens = .empty)
    (hsessions : w.sessions = []) (hcache : w.srv.client.secretCache.m = []) (evs : List Event)
    (hevs : Run.Along (Process.act p) (Admitted p) (booted w) evs) (a : Server.Action) (o : Outgoing)
    (hsent : outgoing (Run.final (Process.act p) (booted w) evs).world a = some o) :
    FromRows p w evs o := by
  obtain ⟨hconn, hep, env, args, hreq⟩ := Server.outgoing_cases hsent
  have hmade {holds : Stores → Prop} (h : holds (ran p w evs).stores) : Arranged p w evs holds :=
    arranged hlib hempty hsessions hevs h
  refine ⟨hmade hconn, hmade hep, ?_, ?_, ?_⟩
  · exact (Gateway.executeCall_assembled hreq).1
  · intro base hbase hweb hhost
    obtain ⟨_, created, _, _, hcreated, _, htarget⟩ := Gateway.executeCall_target hbase hweb hhost hreq
    exact ⟨created, hcreated, htarget⟩
  · have hcred := Gateway.executeCall_credential hreq
    generalize hinj : Gateway.injectAuth env (Run.final (Process.act p) (booted w) evs).world.srv.vault
      o.conn (Run.final (Process.act p) (booted w) evs).world.srv.client = injected at hcred
    obtain ⟨result, client⟩ := injected
    dsimp only at hcred
    rw [hcred] at hinj
    rcases Gateway.injectAuth_cases hinj with ⟨hnone, hempty, _⟩ | ⟨value, hget, hvalue⟩
    · exact .inl ⟨hnone, hempty⟩
    · refine .inr ⟨value, hvalue, ?_⟩
      rcases Gateway.getSecret_cases hget with ⟨hcached, _⟩ | ⟨hread, _⟩
      · obtain ⟨e, he, hev, _⟩ := Cache.TTLCache.live_of_get hcached
        obtain ⟨front, back, hsplit, hheld⟩ := cached_held hcache hevs he
        rw [hev] at hheld
        have hfront := (Run.along_append.mp (hsplit ▸ hevs)).1
        exact (arranged hlib hempty hsessions hfront hheld).later hsplit
      · exact hmade hread

end

/-- A message with the master token. -/
def masterCall (name : Str) (args : List (String × String)) : Server.Action :=
  .postMcp Server.quietEnv ⟨[], newWorld.gatewayToken⟩ false (Json.compact (.obj
    [("id".toList, .bool true), ("method".toList, .str "tools/call".toList),
      ("params".toList, .obj [("name".toList, .str name),
        ("arguments".toList, .obj (args.map fun m => (m.1.toList, .str m.2.toList)))])]))

/-- A secret, a connection that uses it, and an endpoint of the connection. -/
def arrangingRun : List Event :=
  [.mcp (masterCall (Server.AdminTool.name .registerVaultSecret) [("key", "k"), ("value", "v")]),
    .mcp (masterCall (Server.AdminTool.name .addConnection)
      [("name", "n"), ("base_url", "http://h"), ("auth_type", "bearer"), ("auth_secret_ref", "k")]),
    .mcp (masterCall (Server.AdminTool.name .addEndpoint)
      [("connection_id", "r"), ("tool_name", "x"), ("tool_description", "d"), ("path", "/"),
        ("method", "GET")])]

theorem credential_arrangingRun :
    (outgoing (Run.final (Process.act localPortal) (booted newWorld) arrangingRun).world
      (masterCall ['x'] [])).map (fun o => o.request.credential) = some (.bearer ['v']) := by
  decide +kernel

theorem request_arranged_arrangingRun : ∃ o, o.request.credential = .bearer ['v'] ∧
    FromRows localPortal newWorld arrangingRun o := by
  obtain ⟨o, hsent, hcred⟩ := Option.map_eq_some_iff.mp credential_arrangingRun
  have hevs : Run.Along (Process.act localPortal) (Admitted localPortal) (booted newWorld)
      arrangingRun := by
    refine ⟨?_, ?_, ?_, trivial⟩ <;>
    · intro edit h
      cases h
  exact ⟨o, hcred, request_arranged Auth.hs256Package_lawful newWorld rfl rfl rfl arrangingRun hevs _ o
    hsent⟩

end Janus.GatewayProcess
