import Janus.Transport

/-!
# When a change of a token takes effect

A streamable request is run under what its token stands for at that moment. A message
of the SSE transport is run under what the token of the stream stood for when the
stream was opened; it is the same thing as long as no edit of a token and no change of
the OAuth verdicts concerns the token of an open session.
-/

namespace Janus.Server

set_option autoImplicit false

open Storage

/-- The call was presented with a token that is accepted now, and runs under the identity,
role and scopes the token has now. -/
def AuthorizedNow (w : World) (ev : CallEvent) : Prop :=
  resolveAuth ev.readFails ev.token w = some ev.identity

/-- Every open session holds what its token stands for now. -/
def SessionsCurrent (w : World) : Prop :=
  ∀ id session, lookup id w.sessions = some session →
    ∀ token, DB.hashToken token = session.tokenHash →
      resolveAuth false token w = some session.identity

/-- What a token stands for is the same before and after, for the tokens of open sessions. -/
def KeepsOpenSessions (w w' : World) : Prop :=
  ∀ id session, lookup id w.sessions = some session →
    ∀ token, DB.hashToken token = session.tokenHash →
      resolveAuth false token w' = resolveAuth false token w

/-- The condition on a step. Opening a stream asks that the token was read from the table,
and that no other token with the same digest stands for something else; an edit or a
change of verdicts asks that it does not concern an open session. -/
def Admitted (w : World) : Action → Prop
  | .openSSE _ creds readFails =>
    ∀ token, DB.hashToken token = DB.hashToken (extractToken creds) →
      resolveAuth false token w = resolveAuth readFails (extractToken creds) w
  | .editToken edit => KeepsOpenSessions w (step w (.editToken edit)).1
  | .oauthChange oauth => KeepsOpenSessions w (step w (.oauthChange oauth)).1
  | .closeSSE _ | .postMessages _ _ _ _ _ | .postMcp _ _ _ _ => True

theorem tokens_logAuditAsync (entry : AuditLogEntry) (srv : MCPServer) :
    (logAuditAsync entry srv).db.tokens = srv.db.tokens := by
  unfold logAuditAsync
  split
  · rfl
  · rfl

theorem tokens_handleAdminTool (env : Env) (tool : AdminTool) (args : Gateway.Params)
    (srv : MCPServer) : (handleAdminTool env tool args srv).2.db.tokens = srv.db.tokens := by
  cases tool with
  | addConnection =>
    simp only [handleAdminTool]
    cases connectionArg env args with
    | error e => rfl
    | ok conn =>
      cases hs : srv.db.saveConnection env.storeFails conn with
      | error e => simp only [hs]
      | ok db =>
        obtain ⟨_, t, _, rfl⟩ := DB.saveConnection_ok hs
        simp only [hs]
  | addEndpoint =>
    simp only [handleAdminTool]
    cases endpointArg env args with
    | error e => rfl
    | ok ep =>
      cases hs : srv.db.saveEndpoint env.storeFails ep with
      | error e => simp only [hs]
      | ok db =>
        obtain ⟨_, t, _, rfl⟩ := DB.saveEndpoint_ok hs
        simp only [hs]
  | registerVaultSecret =>
    simp only [handleAdminTool]
    cases secretArg args with
    | error e => rfl
    | ok kv =>
      cases hs : srv.vault.setSecret env.vaultFault env.nonce kv.1 kv.2 with
      | mk vault e => cases e <;> simp only [hs]

theorem tokens_callTool (env : Env) (name : Str) (args : Option Gateway.Params) (srv : MCPServer) :
    (callTool env name args srv).2.db.tokens = srv.db.tokens := by
  unfold callTool
  cases dispatch env.callReads name srv.db with
  | error e => rfl
  | ok target =>
    cases target with
    | admin tool => exact tokens_handleAdminTool env tool (args.getD []) srv
    | endpoint ep conn => rfl

theorem tokens_runCall (env : Env) (identity : Str) (req : CallToolRequest) (srv : MCPServer) :
    (runCall env identity req srv).2.db.tokens = srv.db.tokens := by
  simp only [runCall]
  rw [tokens_logAuditAsync, tokens_callTool]

theorem tokens_handleRequest (env : Env) (identity role : Str) (scopes : List Str)
    (req : JSONRPCRequest) (srv : MCPServer) :
    (handleRequest env identity role scopes req srv).2.db.tokens = srv.db.tokens := by
  unfold handleRequest
  split
  · rfl
  · split
    · rfl
    · split
      · simp only [toolsCall]
        cases decodeCall req.params with
        | none => rfl
        | some call =>
          dsimp only
          cases gate role scopes call.name with
          | some e => rfl
          | none =>
            dsimp only
            cases pinCheck env call.name srv with
            | some e => rfl
            | none => exact tokens_runCall env identity call srv
      · rfl

/-- A token stands for the same thing when the tokens, the verdicts and the master token do
not change. -/
theorem resolveAuth_congr {w w' : World} (hg : w'.gatewayToken = w.gatewayToken)
    (ho : w'.oauth = w.oauth) (ht : w'.srv.db.tokens = w.srv.db.tokens) (readFails : Bool)
    (token : Str) : resolveAuth readFails token w' = resolveAuth readFails token w := by
  simp only [resolveAuth, hg, ho, DB.getClientToken, ht]

theorem sessionsCurrent_serve {w : World} (hw : SessionsCurrent w) (env : Env) (token : Str)
    (readFails : Bool) (who : Identity) (req : JSONRPCRequest) :
    SessionsCurrent (serve env token readFails who req w).1 := by
  unfold serve
  split
  · exact hw
  · intro id session hs t ht
    have htok := tokens_handleRequest env who.name who.role who.scopes req w.srv
    have hsame : resolveAuth false t
        { w with srv := (handleRequest env who.name who.role who.scopes req w.srv).2 } =
          resolveAuth false t w := by
      apply resolveAuth_congr
      · rfl
      · rfl
      · exact htok
    exact hsame.trans (hw id session hs t ht)

theorem event_serve {env : Env} {token : Str} {readFails : Bool} {who : Identity}
    {req : JSONRPCRequest} {w : World} {ev : CallEvent}
    (h : ev ∈ (serve env token readFails who req w).2) :
    ev.token = token ∧ ev.readFails = readFails ∧ ev.identity = who := by
  unfold serve at h
  split at h
  · cases h
  · obtain ⟨call, _, rfl⟩ := List.mem_map.mp h
    exact ⟨rfl, rfl, rfl⟩

theorem sessionsCurrent_of_keeps {w w' : World} (hw : SessionsCurrent w)
    (hsess : w'.sessions = w.sessions) (hk : KeepsOpenSessions w w') : SessionsCurrent w' := by
  intro id session hs token ht
  rw [hsess] at hs
  rw [hk id session hs token ht]
  exact hw id session hs token ht

theorem lookup_filter_some {id id' : Str} {sessions : List (Str × Session)} {session : Session}
    (h : lookup id (sessions.filter fun s => s.1 ≠ id') = some session) :
    lookup id sessions = some session := by
  by_cases hid : id = id'
  · subst hid
    rw [lookup_eq_none_of_forall fun m hm => by simpa using (List.mem_filter.mp hm).2] at h
    cases h
  · have hf := lookup_filter_of_ne hid sessions
    rw [← hf]
    simpa using h

theorem sessionsCurrent_serveSSE {w : World} (hw : SessionsCurrent w) {sessionID : Str}
    {creds : Credentials} {readFails : Bool}
    (hok : ∀ token, DB.hashToken token = DB.hashToken (extractToken creds) →
      resolveAuth false token w = resolveAuth readFails (extractToken creds) w) :
    SessionsCurrent (serveSSE sessionID creds readFails w) := by
  unfold serveSSE
  cases hr : resolveAuth readFails (extractToken creds) w with
  | none => exact hw
  | some who =>
    dsimp only
    split
    · exact hw
    · intro id session hs token ht
      have hsame (sessions : List (Str × Session)) :
          resolveAuth false token { w with sessions := sessions } = resolveAuth false token w := rfl
      rw [hsame]
      by_cases hid : id = sessionID
      · subst hid
        simp only [lookup_setMember_self, Option.some.injEq] at hs
        subst hs
        rw [hok token ht, hr]
      · simp only [lookup_setMember_of_ne hid] at hs
        exact hw id session hs token ht

theorem sessionsCurrent_step (w : World) (a : Action) (hw : SessionsCurrent w) (ha : Admitted w a) :
    SessionsCurrent (step w a).1 := by
  cases a with
  | openSSE sessionID creds readFails => exact sessionsCurrent_serveSSE hw ha
  | closeSSE sessionID =>
    intro id session hs token ht
    exact hw id session (lookup_filter_some hs) token ht
  | postMessages env isPost sessionID creds body =>
    simp only [step, serveMessages]
    split
    · exact hw
    · split
      · exact hw
      · split
        · exact hw
        · split
          · exact hw
          · exact sessionsCurrent_serve hw _ _ _ _ _
  | postMcp env creds readFails body =>
    simp only [step, serveStreamable]
    split
    · exact hw
    · split
      · exact hw
      · exact sessionsCurrent_serve hw _ _ _ _ _
  | editToken edit => exact sessionsCurrent_of_keeps hw rfl ha
  | oauthChange oauth => exact sessionsCurrent_of_keeps hw rfl ha

theorem authorizedNow_step (w : World) (a : Action) (hw : SessionsCurrent w) :
    ∀ ev ∈ (step w a).2, AuthorizedNow w ev := by
  intro ev hev
  cases a with
  | openSSE sessionID creds readFails => cases hev
  | closeSSE sessionID => cases hev
  | editToken edit => cases hev
  | oauthChange oauth => cases hev
  | postMessages env isPost sessionID creds body =>
    simp only [step, serveMessages] at hev
    split at hev
    · cases hev
    · split at hev
      · cases hev
      · rename_i session hs
        split at hev
        · cases hev
        · rename_i hhash
          split at hev
          · cases hev
          · obtain ⟨htok, hrf, hid⟩ := event_serve hev
            simp only [AuthorizedNow, htok, hrf, hid]
            exact hw sessionID session hs _ (by simpa using hhash)
  | postMcp env creds readFails body =>
    simp only [step, serveStreamable] at hev
    split at hev
    · cases hev
    · rename_i who hr
      split at hev
      · cases hev
      · obtain ⟨htok, hrf, hid⟩ := event_serve hev
        simp only [AuthorizedNow, htok, hrf, hid]
        exact hr

/-- In every run from a world without sessions whose steps are all admitted, each tool call
runs under what its token stands for at the time of the request. -/
theorem authorizedNow_trace (w : World) (hempty : w.sessions = []) (actions : List Action)
    (hok : Run.Along step Admitted w actions) :
    ∀ p ∈ Run.trace step w actions, AuthorizedNow p.1 p.2 := by
  have hinit : SessionsCurrent w := by
    intro id session hs
    rw [hempty] at hs
    cases hs
  exact Run.good_trace sessionsCurrent_step (fun w a hw _ => authorizedNow_step w a hw) actions w
    hinit hok

def revokedToken : ClientToken := ⟨['t'], ['n'], "developer".toList, ['*'], true⟩

/-- A server with one client token and nothing else. -/
def tokenWorld : World where
  srv := {
    db := TokenEdit.apply (.save false revokedToken) (.empty false)
    client := ⟨⟨[], false⟩, .new 0, .new 0, 0⟩
    vault := .local []
    redactor := none
    toolPinningStrict := false
    auditCh := [] }
  gatewayToken := []
  oauth := none
  sessions := []
  maxSessions := 1000

def tokenCreds : Credentials := ⟨[], ['t']⟩

/-- A call of a tool named `x`. -/
def callBody : Str :=
  Json.compact (.obj [("id".toList, .bool true), ("method".toList, .str "tools/call".toList),
    ("params".toList, .obj [("name".toList, .str ['x'])])])

/-- A stream is opened, its token is deleted, and a call is posted to the stream. -/
def revokedRun : List Action :=
  [.openSSE ['s'] tokenCreds false, .editToken (.delete false ['t']),
    .postMessages quietEnv true ['s'] tokenCreds callBody]

theorem trace_revokedRun :
    (Run.trace step tokenWorld revokedRun).map
      (fun p => decide (resolveAuth p.2.readFails p.2.token p.1 = some p.2.identity)) = [false] := by
  decide +kernel

/-- The deleted token's call runs. -/
theorem revokedRun_unauthorized :
    ¬ ∀ p ∈ Run.trace step tokenWorld revokedRun, AuthorizedNow p.1 p.2 := by
  intro h
  have hall : ∀ b ∈ (Run.trace step tokenWorld revokedRun).map
      (fun p => decide (resolveAuth p.2.readFails p.2.token p.1 = some p.2.identity)), b = true := by
    intro b hb
    obtain ⟨p, hp, rfl⟩ := List.mem_map.mp hb
    exact decide_eq_true (h p hp)
  rw [trace_revokedRun] at hall
  exact absurd (hall false List.mem_cons_self) (by decide)

/-- The same stream used before its token is touched. -/
def usedRun : List Action :=
  [.openSSE ['s'] tokenCreds false, .postMessages quietEnv true ['s'] tokenCreds callBody]

theorem along_usedRun : Run.Along step Admitted tokenWorld usedRun := by
  refine ⟨?_, trivial, trivial⟩
  intro token ht
  have hg (t : Str) : verifyGatewayToken tokenWorld.gatewayToken t = false := rfl
  have ho : tokenWorld.oauth = none := rfl
  simp only [resolveAuth, hg, ho, DB.getClientToken, ht, Option.bind_none]

theorem usedRun_authorized :
    Run.Along step Admitted tokenWorld usedRun ∧
      ∀ p ∈ Run.trace step tokenWorld usedRun, AuthorizedNow p.1 p.2 :=
  ⟨along_usedRun, authorizedNow_trace tokenWorld rfl usedRun along_usedRun⟩

end Janus.Server
