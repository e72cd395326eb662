import Janus.Listing
import Janus.Transport

/-!
# Calls stay within the listing

Whatever a call runs, an endpoint or an admin tool, the listing for the same role and
scopes in the same state has an entry of the called name that was made from it.
-/

namespace Janus.Server

set_option autoImplicit false

open Storage

/-- What a request makes the server run: the call that gets through, and what its name
stands for when the call resolves it. -/
def invoked (env : Env) (role : Str) (scopes : List Str) (req : JSONRPCRequest) (srv : MCPServer) :
    Option (CallToolRequest × Target) :=
  (reachedCall env role scopes req srv).bind fun call =>
    (dispatch env.callReads call.name srv.db).toOption.map fun target => (call, target)

theorem invoked_eq_some {env : Env} {role : Str} {scopes : List Str} {req : JSONRPCRequest}
    {srv : MCPServer} {call : CallToolRequest} {target : Target} :
    invoked env role scopes req srv = some (call, target) ↔
      reachedCall env role scopes req srv = some call ∧
        dispatch env.callReads call.name srv.db = .ok target := by
  unfold invoked
  constructor
  · intro h
    obtain ⟨call', hcall, h⟩ := Option.bind_eq_some_iff.mp h
    obtain ⟨target', htarget, heq⟩ := Option.map_eq_some_iff.mp h
    cases heq
    cases hd : dispatch env.callReads call.name srv.db with
    | error e => simp [hd, Except.toOption] at htarget
    | ok t =>
      rw [hd] at htarget
      cases htarget
      exact ⟨hcall, rfl⟩
  · rintro ⟨hcall, hd⟩
    simp [hcall, hd, Except.toOption]

/-- What is invoked is run, with the redacted arguments. -/
theorem handleRequest_invoked (identity : Str) {env : Env} {role : Str} {scopes : List Str}
    {req : JSONRPCRequest} {srv : MCPServer} {call : CallToolRequest} {target : Target}
    (h : invoked env role scopes req srv = some (call, target)) :
    ∃ entry, (handleRequest env identity role scopes req srv).2 =
      logAuditAsync entry (runTarget env target (redactArgs srv.redactor call.arguments).1 srv).2 := by
  obtain ⟨hcall, hd⟩ := invoked_eq_some.mp h
  refine ⟨auditEntry env identity call.name (redactArgs srv.redactor call.arguments).2 srv.redactor
    (callTool env call.name (redactArgs srv.redactor call.arguments).1 srv).1, ?_⟩
  rw [handleRequest_reached hcall]
  simp only [runCall, callTool, hd]

theorem result_invoked (identity : Str) {env : Env} {role : Str} {scopes : List Str}
    {req : JSONRPCRequest} {srv : MCPServer} {call : CallToolRequest} {target : Target}
    (h : invoked env role scopes req srv = some (call, target)) :
    (handleRequest env identity role scopes req srv).1.result = (callAnswer env srv.redactor
      (runTarget env target (redactArgs srv.redactor call.arguments).1 srv).1).1 := by
  obtain ⟨hcall, hd⟩ := invoked_eq_some.mp h
  rw [handleRequest_reached hcall]
  simp only [runCall, callTool, hd]

/-- A request that invokes nothing is not answered with content. -/
theorem handleRequest_no_content (identity : Str) {env : Env} {role : Str} {scopes : List Str}
    {req : JSONRPCRequest} {srv : MCPServer} (h : invoked env role scopes req srv = none) (text : Str) :
    (handleRequest env identity role scopes req srv).1.result ≠ some (.content text) := by
  cases hcall : reachedCall env role scopes req srv with
  | none => exact (handleRequest_not_reached hcall).2 text
  | some call =>
    cases hd : dispatch env.callReads call.name srv.db with
    | ok target =>
      rw [invoked_eq_some.mpr ⟨hcall, hd⟩] at h
      cases h
    | error e =>
      rw [handleRequest_reached hcall]
      simp [runCall, callTool, hd, callAnswer]

/-- A request that invokes nothing at most queues an audit entry. -/
theorem handleRequest_not_invoked (identity : Str) {env : Env} {role : Str} {scopes : List Str}
    {req : JSONRPCRequest} {srv : MCPServer} (h : invoked env role scopes req srv = none) :
    (handleRequest env identity role scopes req srv).2 = srv ∨
      ∃ entry, (handleRequest env identity role scopes req srv).2 = logAuditAsync entry srv := by
  cases hcall : reachedCall env role scopes req srv with
  | none => exact Or.inl (handleRequest_not_reached hcall).1
  | some call =>
    right
    cases hd : dispatch env.callReads call.name srv.db with
    | ok target =>
      rw [invoked_eq_some.mpr ⟨hcall, hd⟩] at h
      cases h
    | error e =>
      rw [handleRequest_reached hcall]
      refine ⟨auditEntry env identity call.name (redactArgs srv.redactor call.arguments).2
        srv.redactor (.error e), ?_⟩
      simp only [runCall, callTool, hd]

theorem gate_of_reachedCall {env : Env} {role : Str} {scopes : List Str} {req : JSONRPCRequest}
    {srv : MCPServer} {call : CallToolRequest} (h : reachedCall env role scopes req srv = some call) :
    gate role scopes call.name = none := by
  unfold reachedCall at h
  split at h
  · obtain ⟨_, hok⟩ := Option.filter_eq_some_iff.mp h
    simp only [Bool.and_eq_true, Option.isNone_iff_eq_none] at hok
    exact hok.1
  · cases h

/-- What a name is routed to: an admin tool of that name, or a row that is exposed under it. -/
theorem dispatch_ok {faults : ReadFaults} {name : Str} {db : DB} {target : Target}
    (h : dispatch faults name db = .ok target) :
    (∃ t, target = .admin t ∧ t.name = name ∧ Text.hasPrefix name adminPrefix = true) ∨
      ∃ ep conn, target = .endpoint ep conn ∧ ep ∈ db.getAllEndpoints ∧
        enabledConn db.getConnections ep = some conn ∧ resolvedName conn ep = name := by
  unfold dispatch at h
  split at h
  · rename_i hp
    split at h
    · rename_i t ht
      cases h
      exact Or.inl ⟨t, rfl, by simpa using List.find?_some ht, hp⟩
    · cases h
  · split at h
    · cases h
    · cases h
    · rename_i ep conn hf
      cases h
      exact Or.inr ⟨ep, conn, rfl, findIn_found (findEndpoint_of_faults hf).symm⟩

theorem mem_endpointEntries {endpoints : List APIEndpoint} {conns : List APIConnection}
    {scopes : List Str} {ep : APIEndpoint} {conn : APIConnection} (hep : ep ∈ endpoints)
    (hconn : enabledConn conns ep = some conn) (hscope : matchScope (resolvedName conn ep) scopes = true) :
    ⟨endpointTool ep conn, .endpoint ep conn⟩ ∈ endpointEntries endpoints conns scopes := by
  refine List.mem_filterMap.mpr ⟨ep, hep, ?_⟩
  simp only [hconn, hscope, if_true]

theorem mem_adminEntries {role : Str} {scopes : List Str} {t : AdminTool}
    (hrole : role = "admin".toList) (hscope : matchScope t.name scopes = true) :
    ⟨t.tool, .admin t⟩ ∈ adminEntries role scopes := by
  have hall : t ∈ AdminTool.all := by cases t <;> decide
  rw [adminEntries, if_pos hrole]
  refine List.mem_filterMap.mpr ⟨t, hall, ?_⟩
  simp only [hscope, if_true]

/-- The answer to `tools/list`, when the tables can be read. -/
theorem handleRequest_list {env : Env} {identity role : Str} {scopes : List Str}
    {req : JSONRPCRequest} {srv : MCPServer} (hreads : env.listReads = noFaults)
    (hlist : req.method = "tools/list".toList) :
    (handleRequest env identity role scopes req srv).1.result =
      some (.tools ((endpointEntries srv.db.getAllEndpoints srv.db.getConnections scopes ++
        adminEntries role scopes).map Entry.tool)) := by
  have hi : req.method ≠ "initialize".toList := by
    rw [hlist]
    decide
  simp only [handleRequest, if_neg hi, if_pos hlist, toolsList, hreads, listTools, listEntries, noFaults]
  rfl

theorem exists_entry_of_invoked {env : Env} {role : Str} {scopes : List Str} {req : JSONRPCRequest}
    {srv : MCPServer} {call : CallToolRequest} {target : Target}
    (h : invoked env role scopes req srv = some (call, target)) :
    ∃ es, listEntries noFaults role scopes srv.db = .ok es ∧
      ∃ e ∈ es, e.tool.name = call.name ∧ e.origin = target := by
  obtain ⟨hcall, hd⟩ := invoked_eq_some.mp h
  obtain ⟨hadmin, hscope⟩ := gate_eq_none_iff.mp (gate_of_reachedCall hcall)
  refine ⟨_, rfl, ?_⟩
  rcases dispatch_ok hd with ⟨t, rfl, hname, hprefix⟩ | ⟨ep, conn, rfl, hep, hconn, hname⟩
  · rw [← hname] at hscope
    have hentry := mem_adminEntries (hadmin hprefix) hscope
    exact ⟨⟨t.tool, .admin t⟩, List.mem_append_right _ hentry, (name_tool t).trans hname, rfl⟩
  · rw [← hname] at hscope
    exact ⟨⟨endpointTool ep conn, .endpoint ep conn⟩,
      List.mem_append_left _ (mem_endpointEntries hep hconn hscope), hname, rfl⟩

/-- A request is answered without content and changes nothing but the audit queue, or it is answered
with what the target of a listed entry of the called name does, and changes what that changes. -/
theorem handleRequest_listed (env : Env) (identity role : Str) (scopes : List Str) (req : JSONRPCRequest)
    (srv : MCPServer) :
    ((∀ text, (handleRequest env identity role scopes req srv).1.result ≠ some (.content text)) ∧
      ((handleRequest env identity role scopes req srv).2 = srv ∨
        ∃ entry, (handleRequest env identity role scopes req srv).2 = logAuditAsync entry srv)) ∨
    ∃ (call : CallToolRequest) (target : Target) (es : List Entry) (entry : AuditLogEntry),
      listEntries noFaults role scopes srv.db = .ok es ∧
      (∃ e ∈ es, e.tool.name = call.name ∧ e.origin = target) ∧
      (handleRequest env identity role scopes req srv).1.result = (callAnswer env srv.redactor
        (runTarget env target (redactArgs srv.redactor call.arguments).1 srv).1).1 ∧
      (handleRequest env identity role scopes req srv).2 =
        logAuditAsync entry (runTarget env target (redactArgs srv.redactor call.arguments).1 srv).2 := by
  cases hinvoked : invoked env role scopes req srv with
  | none =>
    exact .inl ⟨handleRequest_no_content identity hinvoked, handleRequest_not_invoked identity hinvoked⟩
  | some run =>
    obtain ⟨call, target⟩ := run
    obtain ⟨es, hes, hentry⟩ := exists_entry_of_invoked hinvoked
    obtain ⟨entry, hrun⟩ := handleRequest_invoked identity hinvoked
    exact .inr ⟨call, target, es, entry, hes, hentry, result_invoked identity hinvoked, hrun⟩

/-- Whatever a call invokes is in the listing under the called name: the listing that
`tools/list` answers with for the same role and scopes has an entry of that name, made from
the endpoint or the admin tool that is run. -/
theorem invoked_listed {env : Env} {role : Str} {scopes : List Str} {req : JSONRPCRequest}
    {srv : MCPServer} {call : CallToolRequest} {target : Target}
    (h : invoked env role scopes req srv = some (call, target)) :
    ∃ es, listEntries noFaults role scopes srv.db = .ok es ∧
      (∃ e ∈ es, e.tool.name = call.name ∧ e.origin = target) ∧
      ∀ (env' : Env) (identity : Str) (req' : JSONRPCRequest), env'.listReads = noFaults →
        req'.method = "tools/list".toList →
        (handleRequest env' identity role scopes req' srv).1.result =
          some (.tools (es.map Entry.tool)) := by
  obtain ⟨es, hes, hentry⟩ := exists_entry_of_invoked h
  refine ⟨es, hes, hentry, fun env' identity req' hreads hlist => ?_⟩
  cases hes
  exact handleRequest_list hreads hlist

/-- The server over two rows that share a name. -/
def shadowServer : MCPServer where
  db := shadowDB
  client := ⟨⟨[], false⟩, .new 0, .new 0, 0⟩
  vault := .local []
  redactor := none
  toolPinningStrict := false
  auditCh := []

def shadowRequest : JSONRPCRequest :=
  ⟨"tools/call".toList, some (.obj [("name".toList, .str ['a', 'b'])]), .bool true⟩

theorem invoked_shadowRequest :
    invoked quietEnv ['u'] [['*']] shadowRequest shadowServer =
      some (⟨['a', 'b'], none⟩, .endpoint (shadowEndpoint ['x'] ['1'] ['a', 'b']) (shadowConn ['1'] [])) := by
  decide +kernel

theorem shadowRequest_listed :
    ∃ es, listEntries noFaults ['u'] [['*']] shadowDB = .ok es ∧
      ∃ e ∈ es, e.tool.name = ['a', 'b'] ∧
        e.origin = .endpoint (shadowEndpoint ['x'] ['1'] ['a', 'b']) (shadowConn ['1'] []) := by
  obtain ⟨es, hes, hentry, _⟩ := invoked_listed invoked_shadowRequest
  exact ⟨es, hes, hentry⟩

end Janus.Server
