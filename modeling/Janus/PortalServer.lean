import Janus.ApiReference
import Janus.PortalDeletes
import Janus.SingleSignOn

/-!
# The portal

Embedding of the handlers of `pkg/portal` behind their routes. `step` is one request: it is
routed, its session is checked where the route asks for an administrator, and the handler
changes the stores and answers.
-/

namespace Janus.PortalServer

set_option autoImplicit false

open Storage Vault
open Startup (Config)
open Auth (AuthManager Denied)
open PortalDeletes (Stores Faults StoreCall)

/-- What does not change while the process runs. -/
structure Portal where
  config : Config
  demo : Bool
  idTokens : OAuth.JWT
  sessions : Auth.JWT
  yaml : Str → Option OpenApi.Yaml
  idna : Str → Option Str

def Portal.authManager (p : Portal) : AuthManager := ⟨p.config.jwtSecret, p.config.gatewayToken⟩

structure State where
  stores : Stores
  logs : List TimedLog
  keys : KeyCache

/-- An order in which the names in a vault are listed. -/
structure KeyOrder where
  sort : List Str → List Str
  perm : ∀ ks, (sort ks).Perm ks

/-- The outside of one request. -/
structure Env where
  now : Nat
  faults : Faults
  connectionReads : Option Str
  endpointReads : Option Str
  tokenReads : Option Str
  logReads : Option Str
  vaultReads : Option Str
  newID : Str
  random : List Byte
  nonce : Str
  keyOrder : KeyOrder
  logOrder : LogOrder
  showTime : Nat → Str
  imports : Portal.ImportEnv
  idp : IdentityProvider
  probes : Nat → Portal.ProbeEnv
  activeSessions : Nat
  activeQueries : Nat
  reference : ReferenceEnv
  /-- The status of a redirect to a cleaned path. -/
  redirectStatus : Nat

structure LoginRequest where
  username : Str
  password : Str
  deriving DecidableEq

def decodeLogin : Json → Option LoginRequest :=
  Decode.record (fun l k v =>
    if Text.equalFold k "username".toList then (Decode.str l.username v).map fun x => { l with username := x }
    else if Text.equalFold k "password".toList then
      (Decode.str l.password v).map fun x => { l with password := x }
    else some l) ⟨[], []⟩

def loginResponse (token username : Str) : Response :=
  encoded (object [("token", .str token), ("username", .str username)])

def handleLogin (p : Portal) (now : Nat) (r : Request) : Response × Option Grant :=
  if r.method ≠ "POST".toList then (methodNotAllowed, none)
  else
    match decodeBody decodeLogin r with
    | none => (httpError 400 "\x7b\"error\":\"invalid request\"\x7d", none)
    | some l =>
      if p.config.adminPassword = [] then
        (httpError 401 "\x7b\"error\":\"local login disabled; use SSO\"\x7d", none)
      else if l.username = p.config.adminUsername && l.password = p.config.adminPassword then
        match p.authManager.generateJWT p.sessions p.config.adminUsername "admin".toList now with
        | .error _ => (httpError 500 "\x7b\"error\":\"failed to generate token\"\x7d", none)
        | .ok token =>
          (loginResponse token p.config.adminUsername,
            some ⟨token, p.config.adminUsername, "admin".toList, now⟩)
      else (httpError 401 "\x7b\"error\":\"invalid credentials\"\x7d", none)

/-- The ID of a deletion: the fourth part of the path. -/
def pathID (r : Request) : Option Str :=
  ((Text.splitOn '/' r.path)[3]?).filter fun id => id ≠ []

def missingID : Response := httpError 400 "\x7b\"error\":\"missing ID\"\x7d"

def invalidPayload : Response := httpError 400 "\x7b\"error\":\"invalid payload\"\x7d"

/-- The database after a write, and what is answered when it succeeds. -/
def committed (s : State) (result : Except StoreError DB) (resp : Response) : State × Response :=
  match result with
  | .error _ => (s, internalError)
  | .ok db => ({ s with stores := { s.stores with db := db } }, resp)

def handleConnections (env : Env) (r : Request) (s : State) : State × Response :=
  if r.method = "GET".toList &&
      (r.path = "/api/connections".toList || r.path = "/api/connections/".toList) then
    match env.connectionReads with
    | some _ => (s, internalError)
    | none => (s, encoded (listJson APIConnection.json s.stores.db.getConnections))
  else if r.method = "POST".toList then
    match decodeBody decodeConnection r with
    | none => (s, invalidPayload)
    | some conn =>
      let conn := if conn.id = [] then { conn with id := env.newID } else conn
      committed s (s.stores.db.saveConnection env.faults.db conn) (encoded conn.json)
  else if r.method = "DELETE".toList then
    match pathID r with
    | none => (s, missingID)
    | some id => committed s (s.stores.db.deleteConnection env.faults.db id) noContent
  else (s, methodNotAllowed)

/-- `GetEndpoints`. -/
def getEndpoints (db : DB) (connID : Str) : List APIEndpoint :=
  db.getAllEndpoints.filter fun e => e.connectionID = connID

def handleEndpoints (env : Env) (r : Request) (s : State) : State × Response :=
  if r.method = "GET".toList then
    match env.endpointReads with
    | some _ => (s, internalError)
    | none =>
      let connID := r.query "connection_id"
      let eps := if connID ≠ [] then getEndpoints s.stores.db connID else s.stores.db.getAllEndpoints
      (s, encoded (listJson APIEndpoint.json eps))
  else if r.method = "POST".toList then
    match decodeBody decodeEndpoint r with
    | none => (s, invalidPayload)
    | some ep =>
      let ep := if ep.id = [] then { ep with id := env.newID } else ep
      committed s (s.stores.db.saveEndpoint env.faults.db ep)
        (encoded (DB.pinned s.stores.db ep).json)
  else if r.method = "DELETE".toList then
    match pathID r with
    | none => (s, missingID)
    | some id => committed s (s.stores.db.deleteEndpoint env.faults.db id) noContent
  else (s, methodNotAllowed)

def importRequest (r : Request) : Portal.ImportRequest where
  isPost := r.method = "POST".toList
  body := r.body
  toolPrefix := r.query "prefix"
  dryRun := r.query "dry_run"

def handleOpenAPIImport (p : Portal) (env : Env) (r : Request) (s : State) : State × Response :=
  let (resp, db) := Portal.handleOpenAPIImport p.yaml env.imports (importRequest r) s.stores.db
  ({ s with stores := { s.stores with db := db } }, ⟨resp.status, .importResult resp, none, none⟩)

/-- `ListSecrets`, as it is encoded: the local vault makes its slice, the other appends to it. -/
def listSecrets (env : Env) (v : Provider) : Except Str Json :=
  match v with
  | .local secrets => .ok (.arr ((env.keyOrder.sort (secrets.map Prod.fst)).map .str))
  | .postgres _ rows =>
    match env.vaultReads with
    | some cause => .error cause
    | none => .ok (listJson .str (env.keyOrder.sort (rows.map Prod.fst)))

structure SecretRequest where
  key : Str
  value : Str
  deriving DecidableEq

def decodeSecret : Json → Option SecretRequest :=
  Decode.record (fun q k v =>
    if Text.equalFold k "key".toList then (Decode.str q.key v).map fun x => { q with key := x }
    else if Text.equalFold k "value".toList then (Decode.str q.value v).map fun x => { q with value := x }
    else some q) ⟨[], []⟩

/-- A change asked for by a DELETE, carried out. -/
def executed (env : Env) (s : State) (call : Except Str StoreCall) : State × Response :=
  let (stores, resp) := PortalDeletes.respond env.faults s.stores call
  ({ s with stores := stores },
    ⟨resp.status, if resp.body = [] then .empty else .error resp.body, none, none⟩)

def handleVault (env : Env) (r : Request) (s : State) : State × Response :=
  if r.method = "GET".toList then
    match listSecrets env s.stores.vault with
    | .error _ => (s, httpError 500 "\x7b\"error\":\"failed to list vault keys\"\x7d")
    | .ok keys => (s, encoded keys)
  else if r.method = "POST".toList then
    match (decodeBody decodeSecret r).filter fun q => q.key ≠ [] && q.value ≠ [] with
    | none => (s, httpError 400 "\x7b\"error\":\"key and value are required\"\x7d")
    | some q =>
      let (vault, err) := s.stores.vault.setSecret env.faults.vault env.nonce q.key q.value
      let s := { s with stores := { s.stores with vault := vault } }
      match err with
      | some _ => (s, httpError 500 "\x7b\"error\":\"failed to store secret\"\x7d")
      | none => (s, ⟨200, .text "\x7b\"status\":\"success\"\x7d".toList, none, none⟩)
  else if r.method = "DELETE".toList then executed env s (PortalDeletes.handleVaultDelete r.url.rawQuery)
  else (s, methodNotAllowed)

def generateClientToken (random : List Byte) : Str := "mcp_".toList ++ Base64.encodeRawURL random

def handleTokens (env : Env) (r : Request) (s : State) : State × Response :=
  if r.method = "GET".toList then
    match env.tokenReads with
    | some _ => (s, internalError)
    | none => (s, encoded (listJson ClientToken.json (PortalDeletes.getClientTokens s.stores.db)))
  else if r.method = "POST".toList then
    match decodeBody decodeToken r with
    | none => (s, invalidPayload)
    | some t =>
      if t.clientName = [] then (s, httpError 400 "\x7b\"error\":\"client_name is required\"\x7d")
      else
        let t := if t.token = [] then { t with token := generateClientToken env.random } else t
        committed s (s.stores.db.saveClientToken env.faults.db t) (encoded (createdToken t))
  else if r.method = "DELETE".toList then executed env s (PortalDeletes.handleTokensDelete r.url.rawQuery)
  else (s, methodNotAllowed)

def tlsMode (c : Config) : String :=
  if c.tlsCertPath ≠ [] then "pod" else if c.tlsTerminatedAtProxy then "edge" else "none"

def settings (c : Config) : Json := object
  [("jwt_secret_configured", .bool (c.jwtSecret ≠ [])),
    ("mtls_enabled", .bool (c.clientCAPath ≠ [] || c.mtlsMode = "optional".toList ||
      c.mtlsMode = "required".toList)),
    ("mtls_mode", if c.clientCAPath ≠ [] then text "pod" else .str c.mtlsMode),
    ("oidc_configured", .bool (c.oidcIssuer ≠ [])), ("port", .str c.port),
    ("tls_enabled", .bool (c.tlsCertPath ≠ [] || c.tlsTerminatedAtProxy)),
    ("tls_mode", text (tlsMode c)), ("vault_provider", .str c.vaultProvider)]

def handleSettings (c : Config) (r : Request) : Response :=
  if r.method ≠ "GET".toList then methodNotAllowed else encoded (settings c)

def handleOperationalStats (p : Portal) (env : Env) (r : Request) (s : State) : Response :=
  if r.method ≠ "GET".toList then methodNotAllowed
  else
    match env.connectionReads with
    | some _ => internalError
    | none =>
      let healths := (Portal.handleOperationalStats p.idna true (.ok s.stores.db.getConnections)
        env.probes).2.1
      encoded (object [("active_queries", .num (intLit env.activeQueries)),
        ("connected_users", .num (intLit env.activeSessions)),
        ("connections_health", .arr (healths.map Portal.ConnectionHealth.json))])

def handleAuditLogs (env : Env) (r : Request) (s : State) : Response :=
  if r.method ≠ "GET".toList then methodNotAllowed
  else
    match env.logReads with
    | some _ => internalError
    | none => encoded (listJson (TimedLog.json env.showTime) (getAuditLogs env.logOrder s.logs))

def handleOpenAPI (env : Env) (r : Request) (s : State) : Response :=
  if r.method ≠ "GET".toList then methodNotAllowed
  else
    match env.connectionReads, env.endpointReads with
    | none, none =>
      encoded (apiReference env.reference s.stores.db.getConnections s.stores.db.getAllEndpoints)
    | _, _ => internalError

/-- The handlers behind `AdminAuthMiddleware`. -/
def handleAdmin (p : Portal) (env : Env) (r : Request) (s : State) : Route → State × Response
  | .connections => handleConnections env r s
  | .endpoints => handleEndpoints env r s
  | .importOpenAPI => handleOpenAPIImport p env r s
  | .vault => handleVault env r s
  | .tokens => handleTokens env r s
  | .logs => (s, handleAuditLogs env r s)
  | .settings => (s, handleSettings p.config r)
  | .operationalStats => (s, handleOperationalStats p env r s)
  | .openAPI => (s, handleOpenAPI env r s)
  | .login | .ssoLogin | .ssoCallback | .mockTradeVolume | .mockNonCashCollateral | .frontend =>
    (s, ⟨200, .static, none, none⟩)

def deniedResponse : Denied → Response
  | .unauthorized => httpError 401 "\x7b\"error\":\"unauthorized\"\x7d"
  | .forbidden => httpError 403 "\x7b\"error\":\"forbidden: admin role required\"\x7d"

/-- A request with its answer, and the session that the answer grants. -/
structure Exchanged where
  request : Request
  now : Nat
  response : Response
  grant : Option Grant

def serve (p : Portal) (env : Env) (r : Request) (s : State) : State × Response × Option Grant :=
  match route p.demo r with
  | none => (s, ⟨env.redirectStatus, .static, none, none⟩, none)
  | some .login =>
    let (resp, grant) := handleLogin p env.now r
    (s, resp, grant)
  | some .ssoLogin => (s, handleSSOLogin p.config env.random r, none)
  | some .ssoCallback =>
    let ((resp, grant), keys) := handleSSOCallback p.config p.authManager p.idTokens p.sessions env.idp
      env.now r s.keys
    ({ s with keys := keys }, resp, grant)
  | some route =>
    if route.admin then
      match p.authManager.authorizeAdmin p.sessions env.now r.authorization with
      | .error d => (s, deniedResponse d, none)
      | .ok _ =>
        let (s, resp) := handleAdmin p env r s route
        (s, resp, none)
    else (s, ⟨200, .static, none, none⟩, none)

structure Action where
  env : Env
  request : Request

def step (p : Portal) (s : State) (a : Action) : State × List Exchanged :=
  let (s', resp, grant) := serve p a.env a.request s
  (s', [⟨a.request, a.env.now, resp, grant⟩])

end Janus.PortalServer
