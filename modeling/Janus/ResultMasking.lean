import Janus.Transport

/-!
# What of a downstream body reaches the client and the audit log

A result is redacted before it is returned. An error of the call is not: the text of a
failed status carries the body of the answer into the response and into the audit
entry, so it is masked only where redaction leaves that body as it is.
-/

namespace Janus.Gateway

set_option autoImplicit false

open Storage Vault

/-- The downstream answer that an error text carries. -/
def ExecError.carried : ExecError → Option (Nat × Str)
  | .targetStatus status body => some (status, body)
  | _ => none

/-- The answer that a call reads from the target; none when it is served from the cache or
fails before or instead of an answer. -/
def downstreamReply (env : CallEnv) (vault : Provider) (conn : APIConnection) (ep : APIEndpoint)
    (args : Option Params) (c : Client) : Option (Nat × Str) :=
  match resolveURL c.egress env conn ep (args.getD []) with
  | .error _ => none
  | .ok u =>
    match cachedBody env ep u c with
    | some _ => none
    | none =>
      match newRequest ep args u, injectAuth env vault conn c with
      | .ok _, (.ok _, c') => (doWithRetry env c'.maxRetries ep.method).toOption
      | _, _ => none

theorem carried_resolveURL {egress : EgressPolicy} {env : CallEnv} {conn : APIConnection}
    {ep : APIEndpoint} {params : Params} {e : ExecError}
    (h : resolveURL egress env conn ep params = .error e) : e.carried = none := by
  unfold resolveURL at h
  dsimp only at h
  split at h
  · cases h
    rfl
  · split at h
    · cases h
      rfl
    · cases h

theorem carried_newRequest {ep : APIEndpoint} {args : Option Params} {u : Url.URL} {e : ExecError}
    (h : newRequest ep args u = .error e) : e.carried = none := by
  unfold newRequest at h
  split at h
  · cases h
    rfl
  · split at h
    · cases h
      rfl
    · cases h

theorem carried_credentialOf {authType secret : Str} {e : ExecError}
    (h : credentialOf authType secret = .error e) : e.carried = none := by
  unfold credentialOf at h
  split at h
  · cases h
  · split at h
    · split at h
      · cases h
      · cases h
        rfl
    · split at h
      · split at h
        · cases h
        · cases h
          rfl
      · cases h
        rfl

theorem carried_injectAuth {env : CallEnv} {vault : Provider} {conn : APIConnection} {c c' : Client}
    {e : ExecError} (h : injectAuth env vault conn c = (.error e, c')) : e.carried = none := by
  unfold injectAuth at h
  split at h
  · split at h
    · cases h
      rfl
    · obtain ⟨hcred, _⟩ := Prod.mk.inj h
      exact carried_credentialOf hcred
  · cases h

theorem carried_runAttempt {env : CallEnv} {method : Str} {mayRetry : Bool} {k : Nat} {e : ExecError}
    (h : runAttempt env method mayRetry k = .done (.error e) ∨
      runAttempt env method mayRetry k = .again e) : e.carried = none := by
  unfold runAttempt at h
  split at h
  · rcases h with h | h
    · cases h
      rfl
    · cases h
  · split at h
    · rcases h with h | h
      · cases h
      · cases h
        rfl
    · rcases h with h | h
      · cases h
      · cases h
        rfl
    · split at h
      · rcases h with h | h
        · cases h
          rfl
        · cases h
      · split at h
        · rcases h with h | h
          · cases h
          · cases h
            rfl
        · rcases h with h | h
          · cases h
          · cases h

theorem carried_retryFrom {env : CallEnv} {method : Str} {left k : Nat} {e : ExecError}
    (h : retryFrom env method left k = .error e) : e.carried = none := by
  induction left generalizing k with
  | zero =>
    simp only [retryFrom] at h
    split at h
    · rename_i r hr
      subst h
      exact carried_runAttempt (Or.inl hr)
    · rename_i e' hr
      cases h
      exact carried_runAttempt (Or.inr hr)
  | succ left ih =>
    simp only [retryFrom] at h
    split at h
    · rename_i r hr
      subst h
      exact carried_runAttempt (Or.inl hr)
    · exact ih h

theorem ne_targetStatus_of_carried {e : ExecError} (h : e.carried = none) (status : Nat) (body : Str) :
    e ≠ .targetStatus status body := by
  intro he
  subst he
  cases h

theorem message_targetStatus_inj (status : Nat) (body body' : Str) :
    (ExecError.targetStatus status body).message = (ExecError.targetStatus status body').message ↔
      body = body' :=
  List.append_right_inj
    ("target API returned error status ".toList ++ decimal status ++ ": ".toList)

theorem readReply_targetStatus {reply : Except ExecError (Nat × Str)}
    (hreply : ∀ e, reply = .error e → e.carried = none) (status : Nat) (body : Str) :
    readReply reply = .error (.targetStatus status body) ↔
      reply = .ok (status, body) ∧ 400 ≤ status := by
  cases reply with
  | error e =>
    have hne := ne_targetStatus_of_carried (hreply e rfl) status body
    simp [readReply, hne]
  | ok sb =>
    obtain ⟨s, b⟩ := sb
    by_cases hs : 400 ≤ s
    · simp only [readReply, ge_iff_le, hs, if_true, Except.error.injEq, ExecError.targetStatus.injEq,
        Except.ok.injEq, Prod.mk.injEq]
      constructor
      · intro h
        exact ⟨h, by omega⟩
      · intro h
        exact h.1
    · simp only [readReply, ge_iff_le, hs, if_false, reduceCtorEq, false_iff, Except.ok.injEq,
        Prod.mk.injEq]
      omega

/-- A call fails with the status of the target exactly when the target answered with a
status of 400 or more, and the error carries that answer. -/
theorem executeCall_targetStatus (env : CallEnv) (vault : Provider) (conn : APIConnection)
    (ep : APIEndpoint) (args : Option Params) (c : Client) (status : Nat) (body : Str) :
    (executeCall env vault conn ep args c).result = .error (.targetStatus status body) ↔
      downstreamReply env vault conn ep args c = some (status, body) ∧ 400 ≤ status := by
  unfold executeCall downstreamReply
  cases hu : resolveURL c.egress env conn ep (args.getD []) with
  | error e => simp [ne_targetStatus_of_carried (carried_resolveURL hu) status body]
  | ok u =>
    dsimp only
    cases cachedBody env ep u c with
    | some v => simp
    | none =>
      dsimp only [fetch]
      cases hr : newRequest ep args u with
      | error e => simp [ne_targetStatus_of_carried (carried_newRequest hr) status body]
      | ok req =>
        cases ha : injectAuth env vault conn c with
        | mk cred c' =>
          cases cred with
          | error e => simp [ne_targetStatus_of_carried (carried_injectAuth ha) status body]
          | ok credential =>
            dsimp only
            have hread := @readReply_targetStatus (doWithRetry env c'.maxRetries ep.method)
              (fun e he => carried_retryFrom he) status body
            have hopt : (doWithRetry env c'.maxRetries ep.method).toOption = some (status, body) ↔
                doWithRetry env c'.maxRetries ep.method = .ok (status, body) := by
              cases doWithRetry env c'.maxRetries ep.method <;> simp [Except.toOption]
            rw [hopt, ← hread]
            cases readReply (doWithRetry env c'.maxRetries ep.method) with
            | error e => rfl
            | ok out =>
              dsimp only
              split <;> simp

end Janus.Gateway

namespace Janus.Server

open Storage Gateway Redaction

/-- The error with every downstream text in it passed through the redactor. -/
def CallError.masked (r : Redactor) : CallError → CallError
  | .exec (.targetStatus status body) => .exec (.targetStatus status (r.redactBytes body).1)
  | e => e

def CallError.carried : CallError → Option (Nat × Str)
  | .exec e => e.carried
  | _ => none

/-- What the outcome of a call puts into the response and the audit entries is redacted. -/
def MaskedAnswer (r : Redactor) (storeText : StoreError → Str) (outcome : Except CallError Str)
    (resp : JSONRPCResponse) (queued : List AuditLogEntry) : Prop :=
  match outcome with
  | .ok text =>
    resp.result = some (.content (r.redactBytes text).1) ∧ resp.error = none ∧
      ∀ entry ∈ queued, entry.errMsg = []
  | .error e =>
    resp.result = none ∧ resp.error.map JSONRPCError.message = some ((e.masked r).message storeText) ∧
      ∀ entry ∈ queued, entry.errMsg = (e.masked r).message storeText

/-- The downstream answer that a tool call reads, its arguments redacted first. -/
def callReply (env : Env) (call : CallToolRequest) (srv : MCPServer) : Option (Nat × Str) :=
  match dispatch env.callReads call.name srv.db with
  | .ok (.endpoint ep conn) =>
    downstreamReply env.call srv.vault conn ep (redactArgs srv.redactor call.arguments).1 srv.client
  | _ => none

/-- Masking changes the text of an error exactly when it changes the body it carries. -/
theorem message_masked_iff (r : Redactor) (storeText : StoreError → Str) (e : CallError) :
    (e.masked r).message storeText = e.message storeText ↔
      ∀ status body, e = .exec (.targetStatus status body) → (r.redactBytes body).1 = body := by
  by_cases he : ∃ status body, e = .exec (.targetStatus status body)
  · obtain ⟨status, body, rfl⟩ := he
    have hmsg := message_targetStatus_inj status (r.redactBytes body).1 body
    constructor
    · intro h s b hsb
      cases hsb
      exact hmsg.mp h
    · intro h
      exact hmsg.mpr (h status body rfl)
  · have hsame : e.masked r = e := by
      cases e with
      | exec err =>
        cases err with
        | targetStatus status body => exact absurd ⟨status, body, rfl⟩ he
        | _ => rfl
      | _ => rfl
    rw [hsame]
    constructor
    · intro _ status body hsb
      exact absurd ⟨status, body, hsb⟩ he
    · intro _
      rfl

theorem dispatch_error_carried {faults : ReadFaults} {name : Str} {db : DB} {e : CallError}
    (h : dispatch faults name db = .error e) : e.carried = none := by
  unfold dispatch at h
  split at h
  · split at h
    · cases h
    · cases h
      rfl
  · split at h
    · rename_i err hf
      cases h
      unfold findEndpoint at hf
      split at hf
      · cases hf
        rfl
      · cases hf
        rfl
      · cases hf
    · cases h
      rfl
    · cases h

theorem callTool_targetStatus (env : Env) (call : CallToolRequest) (srv : MCPServer) (status : Nat)
    (body : Str) :
    (callTool env call.name (redactArgs srv.redactor call.arguments).1 srv).1 =
        .error (.exec (.targetStatus status body)) ↔
      callReply env call srv = some (status, body) ∧ 400 ≤ status := by
  unfold callTool callReply
  cases hd : dispatch env.callReads call.name srv.db with
  | error e =>
    have hne : e ≠ .exec (.targetStatus status body) := by
      intro he
      subst he
      cases dispatch_error_carried hd
    simp [hne]
  | ok target =>
    dsimp only
    cases target with
    | admin tool =>
      simp only [runTarget]
      cases (handleAdminTool env tool ((redactArgs srv.redactor call.arguments).1.getD []) srv).1 <;>
        simp [Except.mapError]
    | endpoint ep conn =>
      have hexec := executeCall_targetStatus env.call srv.vault conn ep
        (redactArgs srv.redactor call.arguments).1 srv.client status body
      rw [← hexec]
      simp only [runTarget]
      cases (executeCall env.call srv.vault conn ep (redactArgs srv.redactor call.arguments).1
        srv.client).result <;> simp [Except.mapError]

theorem auditCh_handleAdminTool (env : Env) (tool : AdminTool) (args : Params) (srv : MCPServer) :
    (handleAdminTool env tool args srv).2.auditCh = srv.auditCh := by
  unfold handleAdminTool
  cases tool with
  | addConnection =>
    dsimp only
    split
    · rfl
    · split
      · rfl
      · rfl
  | addEndpoint =>
    dsimp only
    split
    · rfl
    · split
      · rfl
      · rfl
  | registerVaultSecret =>
    dsimp only
    split
    · rfl
    · split
      · rfl
      · rfl

theorem auditCh_callTool (env : Env) (name : Str) (args : Option Params) (srv : MCPServer) :
    (callTool env name args srv).2.auditCh = srv.auditCh := by
  unfold callTool
  cases dispatch env.callReads name srv.db with
  | error e => rfl
  | ok target =>
    cases target with
    | admin tool => exact auditCh_handleAdminTool env tool (args.getD []) srv
    | endpoint ep conn => rfl

/-- The entries that a call adds to the audit channel: its own, when there is room. -/
theorem queued_runCall (env : Env) (identity : Str) (call : CallToolRequest) (srv : MCPServer)
    (entry : AuditLogEntry)
    (h : entry ∈ (runCall env identity call srv).2.auditCh.drop srv.auditCh.length) :
    entry = auditEntry env identity call.name (redactArgs srv.redactor call.arguments).2 srv.redactor
      (callTool env call.name (redactArgs srv.redactor call.arguments).1 srv).1 := by
  simp only [runCall, logAuditAsync] at h
  split at h
  · simpa [auditCh_callTool] using h
  · simp [auditCh_callTool] at h

/-- The answer to a request that makes a call, and the audit entries it adds, are masked. -/
def AnswerMasked (env : Env) (identity role : Str) (scopes : List Str) (req : JSONRPCRequest)
    (srv : MCPServer) (r : Redactor) : Prop :=
  ∀ call, reachedCall env role scopes req srv = some call →
    MaskedAnswer r env.storeText
      (callTool env call.name (redactArgs srv.redactor call.arguments).1 srv).1
      (handleRequest env identity role scopes req srv).1
      ((handleRequest env identity role scopes req srv).2.auditCh.drop srv.auditCh.length)

/-- What one call puts into its answer and its audit entry is masked exactly when the
error of the call carries no body that the redactor would change. -/
theorem answerMasked_reached_iff {env : Env} {identity role : Str} {scopes : List Str}
    {req : JSONRPCRequest} {srv : MCPServer} {r : Redactor} {call : CallToolRequest}
    (hr : srv.redactor = some r) (hcall : reachedCall env role scopes req srv = some call) :
    AnswerMasked env identity role scopes req srv r ↔
      ∀ status body, callReply env call srv = some (status, body) → 400 ≤ status →
        (r.redactBytes body).1 = body := by
  simp only [AnswerMasked, hcall, Option.some.injEq, forall_eq']
  rw [handleRequest_reached hcall]
  have hqueue := queued_runCall env identity call srv
  have hstatus := callTool_targetStatus env call srv
  cases ho : (callTool env call.name (redactArgs srv.redactor call.arguments).1 srv).1 with
  | ok text =>
    constructor
    · intro _ status body hs h400
      have := (hstatus status body).mpr ⟨hs, h400⟩
      rw [ho] at this
      cases this
    · intro _
      refine ⟨?_, by simp only [runCall, ho, callAnswer], ?_⟩
      · simp only [runCall, ho, callAnswer]
        rw [hr]
        rfl
      · intro entry hentry
        rw [hqueue entry hentry, ho]
        rfl
  | error e =>
    have hmask := message_masked_iff r env.storeText e
    have hcarried (status : Nat) (body : Str) :
        e = .exec (.targetStatus status body) ↔
          callReply env call srv = some (status, body) ∧ 400 ≤ status := by
      rw [← hstatus status body, ho, Except.error.injEq]
    constructor
    · intro hm status body hs h400
      have hmsg := hm.2.1
      simp only [runCall, ho, callAnswer, Option.map_some, Option.some.injEq] at hmsg
      exact hmask.mp hmsg.symm status body ((hcarried status body).mpr ⟨hs, h400⟩)
    · intro h
      have hmsg : (e.masked r).message env.storeText = e.message env.storeText := by
        refine hmask.mpr fun status body hcar => ?_
        obtain ⟨hs, h400⟩ := (hcarried status body).mp hcar
        exact h status body hs h400
      refine ⟨by simp only [runCall, ho, callAnswer], ?_, ?_⟩
      · simp only [runCall, ho, callAnswer, Option.map_some, hmsg]
      · intro entry hentry
        rw [hqueue entry hentry, ho, hmsg]
        rfl

/-- With a redactor, what a request puts of a downstream body into its response and its
audit entry is redacted exactly when the target did not answer with a status of 400 or
more and a body that the redactor would change. -/
theorem answerMasked_iff (env : Env) (identity role : Str) (scopes : List Str) (req : JSONRPCRequest)
    (srv : MCPServer) (r : Redactor) (hr : srv.redactor = some r) :
    AnswerMasked env identity role scopes req srv r ↔
      ∀ call, reachedCall env role scopes req srv = some call →
        ∀ status body, callReply env call srv = some (status, body) → 400 ≤ status →
          (r.redactBytes body).1 = body := by
  cases hcall : reachedCall env role scopes req srv with
  | none => simp [AnswerMasked, hcall]
  | some call =>
    rw [answerMasked_reached_iff hr hcall]
    simp only [Option.some.injEq, forall_eq']

def mailRedactor : Redactor := Redaction.new true []

def mailBody : Str := "x@y.co".toList

/-- Every attempt is answered with the given status and the mail address. -/
def mailEnv (status : Nat) : Env where
  call := ⟨0, 0, fun _ => .ok [], none, fun _ => none, fun _ => .reply status mailBody⟩
  listReads := ⟨none, none⟩
  pinReads := ⟨none, none⟩
  callReads := ⟨none, none⟩
  rowID := ['r']
  logID := ['l']
  duration := 0
  storeFails := false
  storeText := fun _ => []
  vaultFault := none
  nonce := []

def mailServer : MCPServer where
  db :=
    { foreignKeys := false
      connections := ⟨[⟨['c'], ['c'], [], "http://h".toList, "none".toList, [], true, []⟩],
        by decide, by decide⟩
      endpoints := ⟨[⟨['e'], ['c'], ['x'], [], ['/'], "GET".toList, [], [], [], 0⟩],
        by decide, by decide⟩
      tokens := .empty }
  client := ⟨⟨[], true⟩, .new 0, .new 0, 0⟩
  vault := .local []
  redactor := some mailRedactor
  toolPinningStrict := false
  auditCh := []

def mailCall : CallToolRequest := ⟨['x'], none⟩

def mailRequest : JSONRPCRequest :=
  ⟨"tools/call".toList, some (.obj [("name".toList, .str ['x'])]), .bool true⟩

theorem reachedCall_mailRequest (status : Nat) :
    reachedCall (mailEnv status) "user".toList [['*']] mailRequest mailServer = some mailCall := rfl

theorem redactBytes_mailBody :
    (mailRedactor.redactBytes mailBody).1 = "[REDACTED:email]".toList := by
  decide +kernel

theorem callReply_mailCall :
    callReply (mailEnv 404) mailCall mailServer = some (404, mailBody) ∧
      callReply (mailEnv 200) mailCall mailServer = some (200, mailBody) := by
  decide +kernel

/-- The answer to the failed call shows the address. -/
theorem mailRequest_not_masked :
    ¬ AnswerMasked (mailEnv 404) ['u'] "user".toList [['*']] mailRequest mailServer mailRedactor := by
  have hr : mailServer.redactor = some mailRedactor := rfl
  rw [answerMasked_reached_iff hr (reachedCall_mailRequest 404)]
  intro h
  have hbody := h 404 mailBody callReply_mailCall.1 (by decide)
  rw [redactBytes_mailBody] at hbody
  exact absurd hbody (by decide +kernel)

/-- The same body under a status of success is masked. -/
theorem mailRequest_masked_on_success :
    AnswerMasked (mailEnv 200) ['u'] "user".toList [['*']] mailRequest mailServer mailRedactor := by
  refine (answerMasked_iff (mailEnv 200) ['u'] "user".toList [['*']] mailRequest mailServer
    mailRedactor rfl).mpr ?_
  intro call hcall status body hs h400
  rw [reachedCall_mailRequest 200] at hcall
  cases hcall
  rw [callReply_mailCall.2] at hs
  cases hs
  exact absurd h400 (by decide)

end Janus.Server
