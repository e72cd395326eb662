import Janus.Lib.Run
import Janus.Server

/-!
# Authentication and the HTTP transports

Embedding of the two transports of `pkg/mcp`: a streamable POST authenticates every
request by its token, the SSE transport authenticates the stream and then accepts
messages that present the same token. `World` holds the server, the open sessions and
what decides about tokens, and `step` is one event of the outside.
-/

namespace Janus.Server

set_option autoImplicit false

open Storage

structure OAuthClaims where
  subject : Str
  scopes : List Str
  deriving Repr, DecidableEq

/-- Who a token stands for. -/
structure Identity where
  name : Str
  role : Str
  scopes : List Str
  deriving Repr, DecidableEq

structure Session where
  identity : Identity
  tokenHash : Str
  deriving Repr, DecidableEq

structure World where
  srv : MCPServer
  gatewayToken : Str
  /-- The verdicts of the OAuth validator, when there is one. -/
  oauth : Option (Str → Option OAuthClaims)
  sessions : List (Str × Session)
  maxSessions : Nat

/-- The token of a request: a bearer header, or else the query parameter. -/
structure Credentials where
  authorization : Str
  queryToken : Str
  deriving Repr, DecidableEq

def extractToken (c : Credentials) : Str :=
  if Text.hasPrefix (c.authorization.map Text.foldChar) "bearer ".toList then
    Text.trimSpace (c.authorization.drop 7)
  else c.queryToken

def verifyGatewayToken (gatewayToken token : Str) : Bool :=
  gatewayToken ≠ [] && Sha256.sha256 token = Sha256.sha256 gatewayToken

def splitScopes (scopes : Str) : List Str :=
  ((Text.splitOn ',' scopes).map Text.trimSpace).filter fun s => s ≠ []

/-- `readFails` says that the token table cannot be read. -/
def resolveAuth (readFails : Bool) (token : Str) (w : World) : Option Identity :=
  if verifyGatewayToken w.gatewayToken token then
    some ⟨"master".toList, "admin".toList, [['*']]⟩
  else
    match if readFails then none else (w.srv.db.getClientToken token).filter ClientToken.enabled with
    | some ct => some ⟨ct.clientName, ct.clientRole, splitScopes ct.scopes⟩
    | none =>
      (w.oauth.bind fun validate => validate token).map fun claims =>
        ⟨if claims.subject = [] then "oauth-client".toList else claims.subject, "user".toList,
          claims.scopes⟩

def decodeRequest : Json → Option JSONRPCRequest :=
  Decode.record (fun r k v =>
    if Text.equalFold k "jsonrpc".toList then (Decode.str [] v).map fun _ => r
    else if Text.equalFold k "method".toList then
      (Decode.str r.method v).map fun x => { r with method := x }
    else if Text.equalFold k "params".toList then some { r with params := some v }
    else if Text.equalFold k "id".toList then (Json.toAny v).map fun x => { r with id := x }
    else some r) ⟨[], none, .null⟩

/-- The first value of a request body. -/
def readRequest (body : Str) : Option JSONRPCRequest :=
  (JsonText.parseValue (body.length + 1) body).bind fun (v, _) => decodeRequest v

/-- A tool call that got through to `callTool`. -/
structure CallEvent where
  token : Str
  readFails : Bool
  identity : Identity
  name : Str
  deriving Repr, DecidableEq

/-- The call that a request makes, when it passes the gates and the pinning check. -/
def reachedCall (env : Env) (role : Str) (scopes : List Str) (req : JSONRPCRequest) (srv : MCPServer) :
    Option CallToolRequest :=
  if req.method = "tools/call".toList then
    (decodeCall req.params).filter fun call =>
      (gate role scopes call.name).isNone && (pinCheck env call.name srv).isNone
  else none

/-- A call that is reached is run. -/
theorem handleRequest_reached {env : Env} {identity role : Str} {scopes : List Str}
    {req : JSONRPCRequest} {srv : MCPServer} {call : CallToolRequest}
    (h : reachedCall env role scopes req srv = some call) :
    handleRequest env identity role scopes req srv =
      (⟨req.id, (runCall env identity call srv).1.1, (runCall env identity call srv).1.2⟩,
        (runCall env identity call srv).2) := by
  unfold reachedCall at h
  split at h
  · rename_i hm
    obtain ⟨hd, hok⟩ := Option.filter_eq_some_iff.mp h
    simp only [Bool.and_eq_true, Option.isNone_iff_eq_none] at hok
    have hi : req.method ≠ "initialize".toList := by rw [hm]; decide
    have hl : req.method ≠ "tools/list".toList := by rw [hm]; decide
    simp only [handleRequest, if_neg hi, if_neg hl, if_pos hm, toolsCall, hd, hok.1, hok.2]
  · cases h

/-- A request that reaches no call leaves the server as it is, and is answered without content. -/
theorem handleRequest_not_reached {env : Env} {identity role : Str} {scopes : List Str}
    {req : JSONRPCRequest} {srv : MCPServer} (h : reachedCall env role scopes req srv = none) :
    (handleRequest env identity role scopes req srv).2 = srv ∧
      ∀ text, (handleRequest env identity role scopes req srv).1.result ≠ some (.content text) := by
  unfold handleRequest
  split
  · exact ⟨rfl, by simp⟩
  · split
    · refine ⟨rfl, ?_⟩
      unfold toolsList
      cases listTools env.listReads role scopes srv.db <;> simp
    · split
      · rename_i hm
        simp only [reachedCall, if_pos hm] at h
        simp only [toolsCall]
        cases hd : decodeCall req.params with
        | none => exact ⟨rfl, by simp⟩
        | some call =>
          dsimp only
          cases hg : gate role scopes call.name with
          | some e => exact ⟨rfl, by simp⟩
          | none =>
            dsimp only
            cases hp : pinCheck env call.name srv with
            | some e => exact ⟨rfl, by simp⟩
            | none => simp [hd, hg, hp, Option.filter] at h
      · exact ⟨rfl, by simp⟩

/-- A request handled under an identity; a request without an id is not handled. -/
def serve (env : Env) (token : Str) (readFails : Bool) (who : Identity) (req : JSONRPCRequest)
    (w : World) : World × List CallEvent :=
  if req.id = .null then (w, [])
  else
    ({ w with srv := (handleRequest env who.name who.role who.scopes req w.srv).2 },
      (reachedCall env who.role who.scopes req w.srv).toList.map fun call =>
        ⟨token, readFails, who, call.name⟩)

def serveStreamable (env : Env) (creds : Credentials) (readFails : Bool) (body : Str) (w : World) :
    World × List CallEvent :=
  match resolveAuth readFails (extractToken creds) w with
  | none => (w, [])
  | some who =>
    match readRequest body with
    | none => (w, [])
    | some req => serve env (extractToken creds) readFails who req w

def serveSSE (sessionID : Str) (creds : Credentials) (readFails : Bool) (w : World) : World :=
  match resolveAuth readFails (extractToken creds) w with
  | none => w
  | some who =>
    let session : Session := ⟨who, DB.hashToken (extractToken creds)⟩
    if w.sessions.length ≥ w.maxSessions then w
    else { w with sessions := setMember sessionID session w.sessions }

def serveMessages (env : Env) (isPost : Bool) (sessionID : Str) (creds : Credentials) (body : Str)
    (w : World) : World × List CallEvent :=
  if !isPost then (w, [])
  else
    match lookup sessionID w.sessions with
    | none => (w, [])
    | some session =>
      if DB.hashToken (extractToken creds) ≠ session.tokenHash then (w, [])
      else
        match readRequest body with
        | none => (w, [])
        | some req => serve env (extractToken creds) false session.identity req w

inductive TokenEdit where
  | save (fails : Bool) (t : ClientToken)
  | delete (fails : Bool) (token : Str)
  | deleteByName (fails : Bool) (name : Str)
  deriving Repr, DecidableEq

def TokenEdit.apply (edit : TokenEdit) (db : DB) : DB :=
  let result :=
    match edit with
    | .save fails t => db.saveClientToken fails t
    | .delete fails token => db.deleteClientToken fails token
    | .deleteByName fails name => db.deleteClientTokenByName fails name
  match result with
  | .ok db' => db'
  | .error _ => db

inductive Action where
  | openSSE (sessionID : Str) (creds : Credentials) (readFails : Bool)
  | closeSSE (sessionID : Str)
  | postMessages (env : Env) (isPost : Bool) (sessionID : Str) (creds : Credentials) (body : Str)
  | postMcp (env : Env) (creds : Credentials) (readFails : Bool) (body : Str)
  | editToken (edit : TokenEdit)
  /-- Time passes or keys rotate, and the validator judges otherwise. -/
  | oauthChange (oauth : Option (Str → Option OAuthClaims))

def step (w : World) : Action → World × List CallEvent
  | .openSSE sessionID creds readFails => (serveSSE sessionID creds readFails w, [])
  | .closeSSE sessionID => ({ w with sessions := w.sessions.filter fun s => s.1 ≠ sessionID }, [])
  | .postMessages env isPost sessionID creds body => serveMessages env isPost sessionID creds body w
  | .postMcp env creds readFails body => serveStreamable env creds readFails body w
  | .editToken edit => ({ w with srv := { w.srv with db := edit.apply w.srv.db } }, [])
  | .oauthChange oauth => ({ w with oauth := oauth }, [])

/-- An outside that refuses nothing and answers no request. -/
def quietEnv : Env where
  call := ⟨0, 0, fun _ => .ok [], none, fun _ => none, fun _ => .transportError []⟩
  listReads := ⟨none, none⟩
  pinReads := ⟨none, none⟩
  callReads := ⟨none, none⟩
  rowID := ['r']
  logID := ['l']
  duration := 0
  storeFails := false
  storeText := fun _ => []
  vaultFault := none
  nonce := []

end Janus.Server
