import Janus.GatewayProcess
import Janus.TakenMessages

/-!
# Who the client tokens stand for

What the portal has acknowledged decides who a client is: a token stands for what the last
creation that was answered with it says, until its deletion is acknowledged. A roster of the
clients, kept from the answers alone, agrees with the table of tokens in every run
(`identity_of_answers`), and every call on the streamable transport traces back through it
(`call_traced`).
-/

namespace Janus.GatewayProcess

set_option autoImplicit false

open PortalServer Storage
open Server (World Identity CallEvent resolveAuth verifyGatewayToken splitScopes)
open PortalDeletes (StoreCall Stores)
open Auth (bearerToken)

/-- The clients by the digests of their tokens, as the rows are stored. -/
abbrev Roster := Str → Option ClientToken

def rosterOf (db : DB) : Roster := fun digest => db.tokens.find digest

def registered (t : ClientToken) (roster : Roster) : Roster :=
  Function.update roster (DB.hashToken t.token) (some { t with token := DB.hashToken t.token })

def dismissed (roster : Roster) : StoreCall → Roster
  | .deleteClientToken token => Function.update roster (DB.hashToken token) none
  | .deleteClientTokenByName name => fun digest => (roster digest).filter fun t => t.clientName ≠ name
  | .deleteSecret _ => roster

/-- The token that an answer shows. -/
def shownToken (resp : Response) : Option ClientToken :=
  match resp.body with
  | .json v => if resp.status = 200 then decodeToken v else none
  | .empty | .error _ | .text _ | .importResult _ | .static => none

/-- What a client of the route of the tokens learns from an answer. -/
def learned (r : Request) (resp : Response) (roster : Roster) : Roster :=
  if r.method = "POST".toList then
    match shownToken resp with
    | some t => registered t roster
    | none => roster
  else if r.method = "DELETE".toList ∧ resp.status = 204 then
    match PortalDeletes.handleTokensDelete r.url.rawQuery with
    | .ok call => dismissed roster call
    | .error _ => roster
  else roster

def acknowledged (p : Portal) (roster : Roster) (e : Exchanged) : Roster :=
  if route p.demo e.request = some .tokens then learned e.request e.response roster else roster

/-- The clients after what has been answered. -/
def told (p : Portal) (roster : Roster) (answered : List Exchanged) : Roster :=
  answered.foldl (acknowledged p) roster

section Table

variable {db db' : DB} {fails : Bool}

theorem rosterOf_saveClientToken {t : ClientToken} (h : db.saveClientToken fails t = .ok db') :
    rosterOf db' = registered t (rosterOf db) := by
  unfold DB.saveClientToken at h
  split at h
  · cases h
  · cases hu : db.tokens.upsert { t with token := DB.hashToken t.token } with
    | none => simp [hu] at h
    | some ts =>
      simp only [hu, Except.ok.injEq] at h
      subst h
      funext digest
      unfold rosterOf registered
      rw [Table.find_upsert hu digest]
      by_cases hd : DB.hashToken t.token = digest
      · subst hd
        rw [if_pos rfl, Function.update_self]
      · rw [if_neg hd, Function.update_of_ne (Ne.symm hd)]

theorem rosterOf_deleteClientToken {token : Str} (h : db.deleteClientToken fails token = .ok db') :
    rosterOf db' = dismissed (rosterOf db) (.deleteClientToken token) := by
  unfold DB.deleteClientToken at h
  split at h
  · cases h
  · cases h
    funext digest
    unfold rosterOf dismissed
    dsimp only
    by_cases hd : digest = DB.hashToken token
    · rw [hd, Function.update_self]
      exact Table.find_delete_self _ _
    · rw [Function.update_of_ne hd]
      exact Table.find_delete_of_ne (Ne.symm hd)

theorem rosterOf_deleteClientTokenByName {name : Str}
    (h : db.deleteClientTokenByName fails name = .ok db') :
    rosterOf db' = dismissed (rosterOf db) (.deleteClientTokenByName name) := by
  unfold DB.deleteClientTokenByName at h
  split at h
  · cases h
  · cases h
    funext digest
    exact Table.find_keep _ _ digest

end Table

section Portal

variable {p : Portal} {env : Env} {r : Request} {s : State}

theorem decodeToken_createdToken (t : ClientToken) : decodeToken (createdToken t) = some t := rfl

theorem shownToken_of_status {resp : Response} (h : resp.status ≠ 200) : shownToken resp = none := by
  unfold shownToken
  split
  · rw [if_neg h]
  all_goals rfl

/-- A creation is answered with the token that is stored, or changes nothing. -/
theorem learned_create {t : ClientToken} (hpost : r.method = "POST".toList) :
    rosterOf (committed s (s.stores.db.saveClientToken env.faults.db t)
        (encoded (createdToken t))).1.stores.db =
      learned r (committed s (s.stores.db.saveClientToken env.faults.db t)
        (encoded (createdToken t))).2 (rosterOf s.stores.db) := by
  unfold learned
  rw [if_pos hpost]
  cases hsave : s.stores.db.saveClientToken env.faults.db t with
  | error e => rfl
  | ok db =>
    have hshown : shownToken (encoded (createdToken t)) = some t := decodeToken_createdToken t
    simp only [committed, hshown]
    exact rosterOf_saveClientToken hsave

/-- A deletion of tokens, carried out. -/
theorem respond_tokens (faults : PortalDeletes.Faults) (stores : Stores) {call : StoreCall}
    (hcall : ∀ key, call ≠ .deleteSecret key) :
    ((PortalDeletes.respond faults stores (.ok call)).2.status = 204 ∧
      rosterOf (PortalDeletes.respond faults stores (.ok call)).1.db = dismissed (rosterOf stores.db) call) ∨
    ((PortalDeletes.respond faults stores (.ok call)).2.status = 500 ∧
      (PortalDeletes.respond faults stores (.ok call)).1 = stores) := by
  cases call with
  | deleteSecret key => exact absurd rfl (hcall key)
  | deleteClientToken token =>
    cases hd : stores.db.deleteClientToken faults.db token with
    | error e =>
      simp only [PortalDeletes.respond, StoreCall.exec, hd]
      exact .inr ⟨trivial, trivial⟩
    | ok db =>
      simp only [PortalDeletes.respond, StoreCall.exec, hd]
      exact .inl ⟨trivial, rosterOf_deleteClientToken hd⟩
  | deleteClientTokenByName name =>
    cases hd : stores.db.deleteClientTokenByName faults.db name with
    | error e =>
      simp only [PortalDeletes.respond, StoreCall.exec, hd]
      exact .inr ⟨trivial, trivial⟩
    | ok db =>
      simp only [PortalDeletes.respond, StoreCall.exec, hd]
      exact .inl ⟨trivial, rosterOf_deleteClientTokenByName hd⟩

theorem handleTokensDelete_ne {query : Str} {call : StoreCall}
    (h : PortalDeletes.handleTokensDelete query = .ok call) (key : Str) : call ≠ .deleteSecret key := by
  rintro rfl
  unfold PortalDeletes.handleTokensDelete at h
  dsimp only at h
  split at h
  · cases h
  · split at h <;> cases h

theorem learned_delete (hdelete : r.method = "DELETE".toList) :
    rosterOf (executed env s (PortalDeletes.handleTokensDelete r.url.rawQuery)).1.stores.db =
      learned r (executed env s (PortalDeletes.handleTokensDelete r.url.rawQuery)).2
        (rosterOf s.stores.db) := by
  have hpost : r.method ≠ "POST".toList := by rw [hdelete]; decide
  unfold learned
  rw [if_neg hpost]
  cases hcall : PortalDeletes.handleTokensDelete r.url.rawQuery with
  | error msg =>
    dsimp only
    split <;> rfl
  | ok call =>
    dsimp only [executed]
    rcases respond_tokens env.faults s.stores (handleTokensDelete_ne hcall) with
      ⟨hstatus, hroster⟩ | ⟨hstatus, hsame⟩
    · rw [hroster]
      exact (if_pos ⟨hdelete, hstatus⟩).symm
    · have hfailed : ¬ (r.method = "DELETE".toList ∧
          (PortalDeletes.respond env.faults s.stores (.ok call)).2.status = 204) := by
        rw [hstatus]
        exact fun h => absurd h.2 (by decide)
      rw [hsame]
      exact (if_neg hfailed).symm

/-- The handler of the tokens changes the table as its answers say. -/
theorem rosterOf_handleTokens (env : Env) (r : Request) (s : State) :
    rosterOf (handleTokens env r s).1.stores.db =
      learned r (handleTokens env r s).2 (rosterOf s.stores.db) := by
  unfold handleTokens
  split
  · rename_i hget
    have hpost : r.method ≠ "POST".toList := by rw [hget]; decide
    have hdelete : r.method ≠ "DELETE".toList := by rw [hget]; decide
    unfold learned
    rw [if_neg hpost, if_neg fun h => hdelete h.1]
    cases env.tokenReads <;> rfl
  · split
    · rename_i hpost
      cases decodeBody decodeToken r with
      | none => simp [learned, hpost, shownToken_of_status, invalidPayload, httpError]
      | some t =>
        dsimp only
        by_cases hname : t.clientName = []
        · rw [if_pos hname]
          simp [learned, hpost, shownToken_of_status, httpError]
        · rw [if_neg hname]
          exact learned_create hpost
    · split
      · exact learned_delete ‹_›
      · rename_i hpost hdelete
        unfold learned
        rw [if_neg hpost, if_neg fun h => hdelete h.1]

end Portal

section Tokens

variable {p : Portal} {env : Env} {r : Request} {s : State} {db db' : DB} {fails : Bool}

theorem tokens_saveConnection {c : APIConnection} (h : db.saveConnection fails c = .ok db') :
    db'.tokens = db.tokens := by
  obtain ⟨_, t, _, rfl⟩ := DB.saveConnection_ok h
  rfl

theorem tokens_saveEndpoint {ep : APIEndpoint} (h : db.saveEndpoint fails ep = .ok db') :
    db'.tokens = db.tokens := by
  obtain ⟨_, t, _, rfl⟩ := DB.saveEndpoint_ok h
  rfl

theorem tokens_deleteConnection {id : Str} (h : db.deleteConnection fails id = .ok db') :
    db'.tokens = db.tokens := by
  unfold DB.deleteConnection at h
  split at h
  · cases h
  · cases h
    rfl

theorem tokens_deleteEndpoint {id : Str} (h : db.deleteEndpoint fails id = .ok db') :
    db'.tokens = db.tokens := by
  rw [DB.deleteEndpoint_ok h]

theorem tokens_committed {result : Except StoreError DB} {resp : Response}
    (h : ∀ db, result = .ok db → db.tokens = s.stores.db.tokens) :
    (committed s result resp).1.stores.db.tokens = s.stores.db.tokens := by
  cases result with
  | error e => rfl
  | ok db => exact h db rfl

theorem tokens_handleConnections (env : Env) (r : Request) (s : State) :
    (handleConnections env r s).1.stores.db.tokens = s.stores.db.tokens := by
  unfold handleConnections
  split
  · cases env.connectionReads <;> rfl
  · split
    · cases decodeBody decodeConnection r with
      | none => rfl
      | some conn => exact tokens_committed fun _ h => tokens_saveConnection h
    · split
      · cases pathID r with
        | none => rfl
        | some id => exact tokens_committed fun _ h => tokens_deleteConnection h
      · rfl

theorem tokens_handleEndpoints (env : Env) (r : Request) (s : State) :
    (handleEndpoints env r s).1.stores.db.tokens = s.stores.db.tokens := by
  unfold handleEndpoints
  split
  · cases env.endpointReads <;> rfl
  · split
    · cases decodeBody decodeEndpoint r with
      | none => rfl
      | some ep => exact tokens_committed fun _ h => tokens_saveEndpoint h
    · split
      · cases pathID r with
        | none => rfl
        | some id => exact tokens_committed fun _ h => tokens_deleteEndpoint h
      · rfl

theorem tokens_saveEndpoints (env : Janus.Portal.ImportEnv) (i : Nat) (pes : List OpenApi.ParsedEndpoint)
    (db : DB) : (Janus.Portal.saveEndpoints env i pes db).2.tokens = db.tokens := by
  induction pes generalizing i db with
  | nil => rfl
  | cons pe pes ih =>
    unfold Janus.Portal.saveEndpoints
    cases hs : db.saveEndpoint (env.fails (i + 1))
        (Janus.Portal.importedEndpoint (env.endpointID i) env.connectionID pe) with
    | error e => rfl
    | ok db' => exact (ih (i + 1) db').trans (tokens_saveEndpoint hs)

theorem tokens_persist (env : Janus.Portal.ImportEnv) (parsed : OpenApi.ParsedConnection) (db : DB) :
    (Janus.Portal.persist env parsed db).2.tokens = db.tokens := by
  unfold Janus.Portal.persist
  cases hs : db.saveConnection (env.fails 0) (Janus.Portal.importedConnection env parsed) with
  | error e => rfl
  | ok db' =>
    dsimp only
    have hloop := tokens_saveEndpoints env 0 parsed.endpoints db'
    have hconn := tokens_saveConnection hs
    generalize Janus.Portal.saveEndpoints env 0 parsed.endpoints db' = done at hloop ⊢
    obtain ⟨_ | _, db''⟩ := done
    · exact hloop.trans hconn
    · exact hloop.trans hconn

theorem tokens_handleOpenAPIImport (p : Portal) (env : Env) (r : Request) (s : State) :
    (handleOpenAPIImport p env r s).1.stores.db.tokens = s.stores.db.tokens := by
  unfold handleOpenAPIImport
  dsimp only
  unfold Janus.Portal.handleOpenAPIImport
  cases Janus.Portal.readImport p.yaml (importRequest r) with
  | error resp => rfl
  | ok parsed =>
    dsimp only
    split
    · rfl
    · exact tokens_persist env.imports parsed s.stores.db

theorem db_executed_vault (env : Env) (s : State) (query : Str) :
    (executed env s (PortalDeletes.handleVaultDelete query)).1.stores.db = s.stores.db := by
  unfold PortalDeletes.handleVaultDelete
  dsimp only
  split
  · rfl
  · unfold executed PortalDeletes.respond StoreCall.exec
    dsimp only
    obtain ⟨v, _ | e⟩ := s.stores.vault.deleteSecret env.faults.vault
      (PortalDeletes.queryGet query "key".toList)
    · rfl
    · rfl

theorem db_handleVault (env : Env) (r : Request) (s : State) :
    (handleVault env r s).1.stores.db = s.stores.db := by
  unfold handleVault
  split
  · split <;> rfl
  · split
    · split
      · rfl
      · dsimp only
        split <;> rfl
    · split
      · exact db_executed_vault env s _
      · rfl

/-- Only the handler of the tokens changes their table. -/
theorem tokens_handleAdmin (p : Portal) (env : Env) (r : Request) (s : State) {rt : Route}
    (h : rt ≠ .tokens) : (handleAdmin p env r s rt).1.stores.db.tokens = s.stores.db.tokens := by
  cases rt with
  | tokens => exact absurd rfl h
  | connections => exact tokens_handleConnections env r s
  | endpoints => exact tokens_handleEndpoints env r s
  | importOpenAPI => exact tokens_handleOpenAPIImport p env r s
  | vault => exact congrArg DB.tokens (db_handleVault env r s)
  | logs | settings | operationalStats | openAPI | login | ssoLogin | ssoCallback | mockTradeVolume
  | mockNonCashCollateral | frontend => rfl

theorem rosterOf_congr (h : db'.tokens = db.tokens) : rosterOf db' = rosterOf db := by
  unfold rosterOf
  rw [h]

/-- A refusal of the middleware says nothing about the tokens. -/
theorem learned_denied (r : Request) (d : Auth.Denied) (roster : Roster) :
    learned r (deniedResponse d) roster = roster := by
  have hstatus : (deniedResponse d).status ≠ 200 ∧ (deniedResponse d).status ≠ 204 := by
    cases d <;> decide
  unfold learned
  rw [shownToken_of_status hstatus.1]
  split
  · rfl
  · rw [if_neg fun h => hstatus.2 h.2]

/-- The table of tokens after a request is what its answer says. -/
theorem rosterOf_serve (p : Portal) (env : Env) (r : Request) (s : State) :
    rosterOf (serve p env r s).1.stores.db = acknowledged p (rosterOf s.stores.db)
      ⟨r, env.now, (serve p env r s).2.1, (serve p env r s).2.2⟩ := by
  unfold acknowledged
  dsimp only
  by_cases hadmin : ForAdmin p r
  · cases hauth : p.authManager.authorizeAdmin p.sessions env.now r.authorization with
    | error d =>
      rw [serve_denied hadmin hauth]
      dsimp only
      rw [learned_denied]
      exact (ite_self _).symm
    | ok claims =>
      obtain ⟨rt, hrt, hrta⟩ := hadmin
      rw [serve_authorized hrt hrta hauth]
      by_cases htokens : rt = .tokens
      · subst htokens
        rw [if_pos hrt]
        exact rosterOf_handleTokens env r s
      · rw [if_neg fun h => htokens (Option.some.inj (hrt.symm.trans h))]
        exact rosterOf_congr (tokens_handleAdmin p env r s htokens)
  · rw [if_neg fun h => hadmin ⟨_, h, rfl⟩, serve_stores hadmin]

end Tokens

section Server

variable {w : World}

def masterIdentity : Identity := ⟨"master".toList, "admin".toList, [['*']]⟩

def clientIdentity (t : ClientToken) : Identity := ⟨t.clientName, t.clientRole, splitScopes t.scopes⟩

/-- Whom the OAuth issuers vouch for. -/
def oauthIdentity (w : World) (token : Str) : Option Identity :=
  (w.oauth.bind fun validate => validate token).map fun claims =>
    ⟨if claims.subject = [] then "oauth-client".toList else claims.subject, "user".toList, claims.scopes⟩

theorem resolveAuth_eq (readFails : Bool) (token : Str) (w : World) : resolveAuth readFails token w =
    if verifyGatewayToken w.gatewayToken token then some masterIdentity
    else ((if readFails then none else (rosterOf w.srv.db (DB.hashToken token)).filter
      ClientToken.enabled).map clientIdentity).or (oauthIdentity w token) := by
  have hrow : (w.srv.db.getClientToken token).filter ClientToken.enabled =
      ((rosterOf w.srv.db (DB.hashToken token)).filter ClientToken.enabled).map
        fun t => { t with token := [] } := by
    unfold DB.getClientToken rosterOf
    rw [Option.filter_map]
    rfl
  unfold resolveAuth
  rw [hrow]
  cases readFails with
  | true => rfl
  | false =>
    split
    · rfl
    · cases (rosterOf w.srv.db (DB.hashToken token)).filter ClientToken.enabled <;> rfl

end Server

section Runs

variable {p : Portal} {x : Process} {ev : Event}

/-- The table of tokens is written by the portal alone. -/
def PortalWrites : Event → Prop
  | .mcp a => ∀ edit, a ≠ .editToken edit
  | .portal _ | .logged _ => True

theorem Admitted.portalWrites (h : Admitted p x ev) : PortalWrites ev := by
  cases ev with
  | portal a => trivial
  | mcp a => exact h
  | logged l => trivial

theorem rosterOf_act (h : PortalWrites ev) {roster : Roster}
    (hx : rosterOf x.world.srv.db = told p roster x.answered) :
    rosterOf (x.act p ev).1.world.srv.db = told p roster (x.act p ev).1.answered := by
  cases ev with
  | logged l => exact hx
  | mcp a => exact (rosterOf_congr (Server.step_tokens h x.world)).trans hx
  | portal a =>
    have hserve := rosterOf_serve p a.env a.request x.system.state
    have hanswered : (x.act p (.portal a)).1.answered = x.answered ++
        [⟨a.request, a.env.now, (serve p a.env a.request x.system.state).2.1,
          (serve p a.env a.request x.system.state).2.2⟩] := rfl
    unfold told
    rw [hanswered, List.foldl_append]
    have hbefore : rosterOf x.system.state.stores.db = x.answered.foldl (acknowledged p) roster := hx
    rw [← hbefore]
    exact hserve

/-- In every run the table of tokens is what the answers of the portal tell of it. -/
theorem rosterOf_final (w : World) (evs : List Event) (hevs : ∀ ev ∈ evs, PortalWrites ev) :
    rosterOf (Run.final (Process.act p) (booted w) evs).world.srv.db =
      told p (rosterOf w.srv.db) (Run.final (Process.act p) (booted w) evs).answered := by
  have hstep (x : Process) (ev : Event) (hx : rosterOf x.world.srv.db = told p (rosterOf w.srv.db) x.answered)
      (hev : PortalWrites ev) : rosterOf (x.act p ev).1.world.srv.db =
        told p (rosterOf w.srv.db) (x.act p ev).1.answered := rosterOf_act hev hx
  exact Run.inv_final hstep evs (booted w) rfl (Run.along_of_mem (fun ev hev _ => hevs ev hev) _)

theorem gatewayToken_final (w : World) (evs : List Event) :
    (Run.final (Process.act p) (booted w) evs).world.gatewayToken = w.gatewayToken := by
  have hstep (x : Process) (ev : Event) (hx : x.world.gatewayToken = w.gatewayToken) (_ : True) :
      (x.act p ev).1.world.gatewayToken = w.gatewayToken := by
    cases ev with
    | portal a => exact hx
    | mcp a => exact (Server.step_gatewayToken x.world a).trans hx
    | logged l => exact hx
  exact Run.inv_final hstep evs (booted w) rfl (Run.along_of_forall (fun _ _ => trivial) evs _)

/-- In every run a token stands for what the answers of the portal have told of it, until they told
that it is gone, and for the client stored at the start where they have told nothing. -/
theorem identity_of_answers (w : World) (evs : List Event) (hevs : ∀ ev ∈ evs, PortalWrites ev) (token : Str)
    (hmaster : verifyGatewayToken w.gatewayToken token = false) :
    resolveAuth false token (Run.final (Process.act p) (booted w) evs).world =
      (((told p (rosterOf w.srv.db) (Run.final (Process.act p) (booted w) evs).answered
        (DB.hashToken token)).filter ClientToken.enabled).map clientIdentity).or
          (oauthIdentity (Run.final (Process.act p) (booted w) evs).world token) := by
  rw [resolveAuth_eq, gatewayToken_final, hmaster, rosterOf_final w evs hevs]
  rfl

/-- The portal answered with a new token. -/
structure Created (p : Portal) (e : Exchanged) (t : ClientToken) : Prop where
  route : route p.demo e.request = some .tokens
  post : e.request.method = "POST".toList
  shown : shownToken e.response = some t

theorem Created.handled {e : Exchanged} {t : ClientToken} (h : Created p e t) :
    e.response.status ∈ handled := by
  have hstatus : e.response.status = 200 := by
    by_contra hno
    cases (shownToken_of_status hno).symm.trans h.shown
  rw [hstatus]
  decide

theorem dismissed_some {roster : Roster} {call : StoreCall} {digest : Str} {t : ClientToken}
    (h : dismissed roster call digest = some t) : roster digest = some t := by
  cases call with
  | deleteSecret key => exact h
  | deleteClientTokenByName name => exact (Option.filter_eq_some_iff.mp h).1
  | deleteClientToken token =>
    unfold dismissed at h
    dsimp only at h
    by_cases hd : digest = DB.hashToken token
    · rw [hd, Function.update_self] at h
      cases h
    · rwa [Function.update_of_ne hd] at h

/-- What one answer tells of a token was known before, or is its creation. -/
theorem acknowledged_some {roster : Roster} {e : Exchanged} {digest : Str} {t : ClientToken}
    (h : acknowledged p roster e digest = some t) : roster digest = some t ∨
      ∃ t', Created p e t' ∧ DB.hashToken t'.token = digest ∧ t = { t' with token := digest } := by
  unfold acknowledged at h
  split at h
  · rename_i hroute
    unfold learned at h
    split at h
    · rename_i hpost
      cases hshown : shownToken e.response with
      | none =>
        rw [hshown] at h
        exact .inl h
      | some t' =>
        rw [hshown] at h
        dsimp only [registered] at h
        by_cases hd : digest = DB.hashToken t'.token
        · subst hd
          rw [Function.update_self] at h
          exact .inr ⟨t', ⟨hroute, hpost, hshown⟩, rfl, (Option.some.inj h).symm⟩
        · rw [Function.update_of_ne hd] at h
          exact .inl h
    · split at h
      · cases hcall : PortalDeletes.handleTokensDelete e.request.url.rawQuery with
        | error msg =>
          rw [hcall] at h
          exact .inl h
        | ok call =>
          rw [hcall] at h
          exact .inl (dismissed_some h)
      · exact .inl h
  · exact .inl h

theorem told_some {roster : Roster} {es : List Exchanged} {digest : Str} {t : ClientToken}
    (h : told p roster es digest = some t) : roster digest = some t ∨
      ∃ e ∈ es, ∃ t', Created p e t' ∧ DB.hashToken t'.token = digest ∧ t = { t' with token := digest } := by
  induction es generalizing roster with
  | nil => exact .inl h
  | cons e es ih =>
    rcases ih h with hfirst | ⟨e', he', hlater⟩
    · rcases acknowledged_some hfirst with hbefore | ⟨t', hcreated⟩
      · exact .inl hbefore
      · exact .inr ⟨e, List.mem_cons_self, t', hcreated⟩
    · exact .inr ⟨e', List.mem_cons_of_mem e he', hlater⟩

/-- An administrator's session: the grant, and the login that it comes from. -/
structure FromLogin (p : Portal) (answered : List Exchanged) (e : Exchanged) (g : Grant) : Prop where
  warranted : Warranted answered e g
  login : ∃ e' ∈ answered, g.grantedAt = e'.now ∧ (LocalLogin p e' g ∨
    (SignedOn p e' g ∧ p.config.oidcDefaultRole = "admin".toList))

/-- Whom a call is made for. -/
inductive Traced (p : Portal) (x : Process) (call : CallEvent) : Prop
  | master (verified : verifyGatewayToken x.world.gatewayToken call.token = true)
      (identity : call.identity = masterIdentity)
  | issuer (vouched : oauthIdentity x.world call.token = some call.identity)
  | client (e : Exchanged) (t : ClientToken) (g : Grant) (answered : e ∈ x.answered)
      (created : Created p e t) (token : DB.hashToken t.token = DB.hashToken call.token)
      (enabled : t.enabled = true) (identity : call.identity = clientIdentity t)
      (admin : FromLogin p x.answered e g)

theorem Sound.fromLogin (h : Sound p x) {e : Exchanged} (he : e ∈ x.answered) {t : ClientToken}
    (hcreated : Created p e t) : ∃ g, FromLogin p x.answered e g := by
  obtain ⟨g, hg⟩ := h.warranted e he ⟨_, hcreated.route, rfl⟩ hcreated.handled
  exact ⟨g, hg, admin_origin h.recorded hg.granted hg.role⟩

theorem traced_of_resolveAuth (h : Sound p x)
    (hroster : rosterOf x.world.srv.db = told p (fun _ => none) x.answered) {call : CallEvent}
    (hresolved : resolveAuth call.readFails call.token x.world = some call.identity) :
    Traced p x call := by
  rw [resolveAuth_eq, hroster] at hresolved
  split at hresolved
  · rename_i hmaster
    exact .master hmaster (Option.some.inj hresolved).symm
  · rcases Option.or_eq_some_iff.mp hresolved with hclient | ⟨_, hissuer⟩
    · obtain ⟨row, hrow, hidentity⟩ := Option.map_eq_some_iff.mp hclient
      split at hrow
      · cases hrow
      · obtain ⟨htold, henabled⟩ := Option.filter_eq_some_iff.mp hrow
        rcases told_some htold with hnone | ⟨e, he, t, hcreated, htoken, rfl⟩
        · cases hnone
        · obtain ⟨g, hg⟩ := h.fromLogin he hcreated
          exact .client e t g he hcreated htoken henabled hidentity.symm hg
    · exact .issuer hissuer

/-- A process whose clients are those that it has told an administrator of. -/
structure Traceable (p : Portal) (x : Process) : Prop where
  sound : Sound p x
  roster : rosterOf x.world.srv.db = told p (fun _ => none) x.answered

theorem Traceable.traced (h : Traceable p x) {r : Reached} (hr : r ∈ (x.act p ev).2)
    (hpost : ∃ env creds readFails body, r.action = .postMcp env creds readFails body) :
    Traced p x r.call := by
  obtain ⟨env, creds, readFails, body, hpost⟩ := hpost
  cases ev with
  | portal a => cases hr
  | logged l => cases hr
  | mcp a =>
    obtain ⟨call, hcall, rfl⟩ := List.mem_map.mp hr
    cases hpost
    exact traced_of_resolveAuth h.sound h.roster (Server.resolveAuth_of_reached hcall)

/-- In every run on a database without tokens, a tool call on the streamable transport is made with
the master token, with one of the OAuth issuers, or for a client whose token the portal showed to
an administrator, whose session comes from a login less than a day before. -/
theorem call_traced (hlib : p.sessions.Lawful) (w : World) (hempty : w.srv.db.tokens = .empty)
    (evs : List Event) (hevs : Run.Along (Process.act p) (Admitted p) (booted w) evs) :
    ∀ r ∈ Run.trace (Process.act p) (booted w) evs,
      (∃ env creds readFails body, r.2.action = .postMcp env creds readFails body) →
        Traced p r.1 r.2.call := by
  have hnone : rosterOf w.srv.db = fun _ => none := by
    unfold rosterOf
    rw [hempty]
    rfl
  have hstep (x : Process) (ev : Event) (hx : Traceable p x) (hev : Admitted p x ev) :
      Traceable p (x.act p ev).1 := ⟨hx.sound.act hlib hev, rosterOf_act hev.portalWrites hx.roster⟩
  exact Run.good_trace hstep (fun x ev hx _ r hr hpost => hx.traced hr hpost) evs (booted w)
    ⟨sound_booted p w, hnone⟩ hevs

end Runs

/-- A token is created a minute after the login. -/
def tokenAction : PortalServer.Action := ⟨plainEnv (60 * Auth.second), requestTo "POST".toList
  "/api/tokens".toList ("Bearer ".toList ++ adminToken)
  "\x7b\"client_name\":\"ci\",\"client_role\":\"developer\",\"scopes\":\"*\",\"enabled\":true\x7d".toList⟩

/-- A gateway without clients. -/
def newWorld : World where
  srv := { Server.tokenWorld.srv with db := .empty false }
  gatewayToken := "fedcba9876543210fedcba9876543210".toList
  oauth := none
  sessions := []
  maxSessions := 1000

/-- A login, the creation of a client, and a call with its token. -/
def clientRun : List Event :=
  [.portal loginAction, .portal tokenAction,
    .mcp (.postMcp Server.quietEnv ⟨"Bearer mcp_".toList, []⟩ false Server.callBody)]

theorem admitted_clientRun :
    Run.Along (Process.act localPortal) (Admitted localPortal) (booted newWorld) clientRun := by
  have hbearer : bearerToken tokenAction.request.authorization = adminToken :=
    Auth.bearerToken_bearer (Auth.isSpace_signHS256 _ _)
  have htime : Timely tokenAction.env.now := by
    unfold Timely
    decide
  have hlogin : Admitted localPortal (booted newWorld) (.portal loginAction) := admitted_login.1
  have hcreate : Admitted localPortal ((booted newWorld).act localPortal (.portal loginAction)).1
      (.portal tokenAction) := by
    unfold Admitted
    rw [system_portal]
    exact admitted_afterLogin hbearer htime
  refine ⟨hlogin, hcreate, ?_, trivial⟩
  intro edit h
  cases h

theorem portalWrites_clientRun : ∀ ev ∈ clientRun, PortalWrites ev := by
  intro ev hev
  simp only [clientRun, List.mem_cons, List.not_mem_nil, or_false] at hev
  rcases hev with rfl | rfl | rfl
  · trivial
  · trivial
  · intro edit h
    cases h

theorem identity_of_answers_clientRun : resolveAuth false "mcp_".toList
      (Run.final (Process.act localPortal) (booted newWorld) clientRun).world =
    (((told localPortal (rosterOf newWorld.srv.db)
      (Run.final (Process.act localPortal) (booted newWorld) clientRun).answered
      (DB.hashToken "mcp_".toList)).filter ClientToken.enabled).map clientIdentity).or
        (oauthIdentity (Run.final (Process.act localPortal) (booted newWorld) clientRun).world
          "mcp_".toList) :=
  identity_of_answers newWorld clientRun portalWrites_clientRun "mcp_".toList (by decide +kernel)

theorem call_traced_clientRun :
    (Run.trace (Process.act localPortal) (booted newWorld) clientRun).length = 1 ∧
      ∀ r ∈ Run.trace (Process.act localPortal) (booted newWorld) clientRun,
        (∃ env creds readFails body, r.2.action = .postMcp env creds readFails body) →
          Traced localPortal r.1 r.2.call :=
  ⟨by decide +kernel, call_traced Auth.hs256Package_lawful newWorld rfl clientRun admitted_clientRun⟩

end Janus.GatewayProcess
