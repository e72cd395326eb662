import Janus.Server

/-!
# Strict tool pinning

Every stored row carries the hash of its own definition, whatever writes led to the
database. The check of a call hashes the same row under the name the tool is exposed
by, so an unmodified tool passes it exactly when its connection has no prefix.
-/

namespace Janus.Server

set_option autoImplicit false

open Storage

inductive DbOp where
  | saveConnection (fails : Bool) (conn : APIConnection)
  | deleteConnection (fails : Bool) (id : Str)
  | saveEndpoint (fails : Bool) (ep : APIEndpoint)
  | deleteEndpoint (fails : Bool) (id : Str)
  deriving Repr, DecidableEq

def DbOp.exec (op : DbOp) (db : DB) : Except StoreError DB :=
  match op with
  | .saveConnection fails conn => db.saveConnection fails conn
  | .deleteConnection fails id => db.deleteConnection fails id
  | .saveEndpoint fails ep => db.saveEndpoint fails ep
  | .deleteEndpoint fails id => db.deleteEndpoint fails id

/-- A refused write changes nothing. -/
def DbOp.apply (db : DB) (op : DbOp) : DB :=
  match op.exec db with
  | .ok db' => db'
  | .error _ => db

def runOps (ops : List DbOp) (db : DB) : DB := ops.foldl DbOp.apply db

/-- Every row holds the hash of its own definition. -/
def PinnedRows (db : DB) : Prop :=
  ∀ ep ∈ db.endpoints, ep.definitionHash = ToolIntegrity.hash (DB.savedToolDef ep)

theorem pinnedRows_exec {op : DbOp} {db db' : DB} (hp : PinnedRows db) (h : op.exec db = .ok db') :
    PinnedRows db' := by
  cases op with
  | saveConnection fails conn =>
    obtain ⟨_, t, _, rfl⟩ := DB.saveConnection_ok h
    exact hp
  | deleteConnection fails id =>
    intro ep hep
    exact hp ep ((DB.deleteConnection_ok h).2 ep hep)
  | saveEndpoint fails ep =>
    obtain ⟨_, t, ht, rfl⟩ := DB.saveEndpoint_ok h
    intro e he
    rcases (Table.mem_upsert ht).mp he with rfl | ⟨he, _⟩
    · rfl
    · exact hp e he
  | deleteEndpoint fails id =>
    rw [DB.deleteEndpoint_ok h]
    intro e he
    exact hp e (Table.mem_delete.mp he).1

theorem pinnedRows_apply {db : DB} (hp : PinnedRows db) (op : DbOp) : PinnedRows (op.apply db) := by
  unfold DbOp.apply
  split
  · rename_i db' h
    exact pinnedRows_exec hp h
  · exact hp

theorem pinnedRows_runOps (ops : List DbOp) {db : DB} (hp : PinnedRows db) :
    PinnedRows (runOps ops db) := by
  induction ops generalizing db with
  | nil => exact hp
  | cons op ops ih => exact ih (pinnedRows_apply hp op)

theorem pinnedRows_empty (foreignKeys : Bool) : PinnedRows (.empty foreignKeys) := by
  intro ep hep
  cases hep

theorem foreignKeys_apply (op : DbOp) (db : DB) : (op.apply db).foreignKeys = db.foreignKeys := by
  unfold DbOp.apply
  split
  · rename_i db' h
    cases op with
    | saveConnection fails conn =>
      obtain ⟨_, t, _, rfl⟩ := DB.saveConnection_ok h
      rfl
    | deleteConnection fails id =>
      simp only [DbOp.exec, DB.deleteConnection] at h
      split at h
      · cases h
      · cases h
        rfl
    | saveEndpoint fails ep =>
      obtain ⟨_, t, _, rfl⟩ := DB.saveEndpoint_ok h
      rfl
    | deleteEndpoint fails id =>
      rw [DB.deleteEndpoint_ok h]
  · rfl

/-- No other endpoint of an enabled connection is exposed under the name. -/
def OnlyResolves (db : DB) (ep : APIEndpoint) (name : Str) : Prop :=
  ∀ ep' ∈ db.endpoints, ∀ conn', enabledConn db.getConnections ep' = some conn' →
    resolvedName conn' ep' = name → ep' = ep

theorem findIn_eq_some {conns : List APIConnection} {name : Str} {eps : List APIEndpoint}
    {ep : APIEndpoint} {conn : APIConnection} (hmem : ep ∈ eps)
    (hconn : enabledConn conns ep = some conn) (hname : resolvedName conn ep = name)
    (honly : ∀ ep' ∈ eps, ∀ conn', enabledConn conns ep' = some conn' →
      resolvedName conn' ep' = name → ep' = ep) :
    findIn conns name eps = some (ep, conn) := by
  induction eps with
  | nil => cases hmem
  | cons e eps ih =>
    have honly' := fun ep' hep' => honly ep' (List.mem_cons_of_mem e hep')
    by_cases he : e = ep
    · subst e
      simp [findIn, hconn, hname]
    · have hmem' : ep ∈ eps := by
        rcases List.mem_cons.mp hmem with h | h
        · exact absurd h.symm he
        · exact h
      cases hc : enabledConn conns e with
      | none => simp [findIn, hc, ih hmem' honly']
      | some c =>
        have hne : resolvedName c e ≠ name := fun h => he (honly e List.mem_cons_self c hc h)
        simp [findIn, hc, hne, ih hmem' honly']

def noFaults : ReadFaults := ⟨none, none⟩

theorem findEndpoint_of_faults {faults : ReadFaults} {name : Str} {db : DB}
    {r : Option (APIEndpoint × APIConnection)} (h : findEndpoint faults name db = .ok r) :
    r = findIn db.getConnections name db.getAllEndpoints := by
  unfold findEndpoint at h
  split at h
  · cases h
  · cases h
  · exact (Except.ok.inj h).symm

/-- The request is a call of the named tool. -/
def CallsTool (req : JSONRPCRequest) (name : Str) : Prop :=
  req.method = "tools/call".toList ∧ ∃ call, decodeCall req.params = some call ∧ call.name = name

/-- The tool passes the check: its definition counts as unchanged, and no request for it
is answered with the refusal of a changed tool. -/
def NeverRefused (db : DB) (name : Str) : Prop :=
  toolDefinitionChanged noFaults name db = .ok false ∧
    ∀ (env : Env) (identity role : Str) (scopes : List Str) (req : JSONRPCRequest) (srv : MCPServer),
      srv.db = db → srv.toolPinningStrict = true → CallsTool req name →
        ∀ e, (handleRequest env identity role scopes req srv).1.error = some e → e.code ≠ -32001

theorem code_of_gate {role : Str} {scopes : List Str} {name : Str} {e : JSONRPCError}
    (h : gate role scopes name = some e) : e.code = -32601 := by
  unfold gate at h
  split at h
  · cases h
    rfl
  · split at h
    · cases h
      rfl
    · cases h

theorem code_of_runCall {env : Env} (identity : Str) {req : CallToolRequest} {srv : MCPServer}
    {e : JSONRPCError} (h : (runCall env identity req srv).1.2 = some e) : e.code = -32603 := by
  simp only [runCall, callAnswer] at h
  split at h
  · cases h
    rfl
  · cases h

/-- Read errors aside, the check depends on the database only. -/
theorem toolDefinitionChanged_true {faults : ReadFaults} {name : Str} {db : DB}
    (h : toolDefinitionChanged faults name db = .ok true) :
    toolDefinitionChanged noFaults name db = .ok true := by
  unfold toolDefinitionChanged at h ⊢
  split
  · simp_all
  · rename_i hp
    simp only [if_neg hp] at h
    cases hf : findEndpoint faults name db with
    | error e => simp [hf] at h
    | ok r =>
      have hr : findEndpoint noFaults name db = .ok r := by
        rw [findEndpoint_of_faults hf]
        rfl
      rw [hr]
      rw [hf] at h
      exact h

/-- The refusal of a changed tool comes from the check alone. -/
theorem changed_of_code {env : Env} {identity role : Str} {scopes : List Str} {req : JSONRPCRequest}
    {srv : MCPServer} {name : Str} (hcall : CallsTool req name) {e : JSONRPCError}
    (h : (handleRequest env identity role scopes req srv).1.error = some e) (hcode : e.code = -32001) :
    toolDefinitionChanged noFaults name srv.db = .ok true := by
  obtain ⟨hm, call, hd, rfl⟩ := hcall
  have hi : req.method ≠ "initialize".toList := by rw [hm]; decide
  have hl : req.method ≠ "tools/list".toList := by rw [hm]; decide
  simp only [handleRequest, if_neg hi, if_neg hl, if_pos hm, toolsCall, hd] at h
  cases hg : gate role scopes call.name with
  | some g =>
    simp only [hg, Option.some.injEq] at h
    rw [← h, code_of_gate hg] at hcode
    cases hcode
  | none =>
    simp only [hg] at h
    cases hp : pinCheck env call.name srv with
    | none =>
      simp only [hp] at h
      rw [code_of_runCall identity h] at hcode
      cases hcode
    | some p =>
      simp only [hp, Option.some.injEq] at h
      subst h
      unfold pinCheck at hp
      split at hp
      · cases hp
      · cases hc : toolDefinitionChanged env.pinReads call.name srv.db with
        | error err =>
          simp only [hc, Option.some.injEq] at hp
          rw [← hp] at hcode
          cases hcode
        | ok b =>
          cases b with
          | true => exact toolDefinitionChanged_true hc
          | false => simp [hc] at hp

theorem neverRefused_iff {db : DB} {name : Str} :
    NeverRefused db name ↔ toolDefinitionChanged noFaults name db = .ok false := by
  constructor
  · intro h
    exact h.1
  · intro h
    refine ⟨h, ?_⟩
    intro env identity role scopes req srv hdb _ hcall e he hcode
    have hc := changed_of_code hcall he hcode
    rw [hdb, h] at hc
    cases hc

theorem resolvedName_eq (conn : APIConnection) (ep : APIEndpoint) :
    resolvedName conn ep = conn.toolPrefix ++ ep.toolName := by
  unfold resolvedName
  split
  · rfl
  · rename_i h
    simp only [ne_eq, not_not] at h
    simp [h]

/-- An unmodified tool is never refused exactly when its connection has no prefix, a
collision of the digest apart. -/
theorem neverRefused_runOps_iff (foreignKeys : Bool) (ops : List DbOp) (ep : APIEndpoint)
    (conn : APIConnection) (hep : ep ∈ (runOps ops (.empty foreignKeys)).endpoints)
    (hconn : enabledConn (runOps ops (.empty foreignKeys)).getConnections ep = some conn)
    (hadmin : Text.hasPrefix (resolvedName conn ep) adminPrefix = false)
    (honly : OnlyResolves (runOps ops (.empty foreignKeys)) ep (resolvedName conn ep)) :
    NeverRefused (runOps ops (.empty foreignKeys)) (resolvedName conn ep) ↔
      conn.toolPrefix = [] ∨
        ToolIntegrity.Collide (liveToolDef (resolvedName conn ep) ep) (DB.savedToolDef ep) := by
  rw [neverRefused_iff]
  have hpin := pinnedRows_runOps ops (pinnedRows_empty foreignKeys) ep hep
  generalize runOps ops (.empty foreignKeys) = db at *
  have hfind : findEndpoint noFaults (resolvedName conn ep) db = .ok (some (ep, conn)) := by
    exact congrArg Except.ok (findIn_eq_some hep hconn rfl honly)
  simp only [toolDefinitionChanged, hadmin, Bool.false_eq_true, if_false, hfind, hpin,
    Except.ok.injEq]
  rw [ToolIntegrity.changed_hash_eq_false]
  by_cases hpre : conn.toolPrefix = []
  · have hsame : liveToolDef (resolvedName conn ep) ep = DB.savedToolDef ep := by
      rw [resolvedName_eq, hpre]
      rfl
    simp [hsame, hpre]
  · have hne : (liveToolDef (resolvedName conn ep) ep).name ≠ (DB.savedToolDef ep).name := by
      change resolvedName conn ep ≠ ep.toolName
      rw [resolvedName_eq]
      intro h
      have hlen := congrArg List.length h
      rw [List.length_append] at hlen
      exact hpre (List.length_eq_zero_iff.mp (by omega))
    rw [ToolIntegrity.hash_eq_iff_of_name_ne hne]
    simp [hpre]

def prefixedConnection : APIConnection :=
  ⟨['c'], ['n'], [], "http://h".toList, "none".toList, [], true, ['p', '_']⟩

def plainEndpoint : APIEndpoint :=
  ⟨['e'], ['c'], ['t'], ['d'], ['/'], "GET".toList, [], [], [], 0⟩

def prefixedOps : List DbOp :=
  [.saveConnection false prefixedConnection, .saveEndpoint false plainEndpoint]

/-- The row as it is stored. -/
def storedEndpoint : APIEndpoint :=
  { plainEndpoint with
    definitionHash := ToolIntegrity.hash (DB.savedToolDef plainEndpoint), version := 1 }

theorem endpoints_prefixedOps : (runOps prefixedOps (.empty false)).getAllEndpoints = [storedEndpoint] :=
  rfl

theorem enabledConn_prefixedOps :
    enabledConn (runOps prefixedOps (.empty false)).getConnections storedEndpoint =
      some prefixedConnection := by
  decide

theorem resolvedName_prefixed : resolvedName prefixedConnection storedEndpoint = ['p', '_', 't'] := rfl

theorem onlyResolves_prefixedOps (name : Str) :
    OnlyResolves (runOps prefixedOps (.empty false)) storedEndpoint name := by
  intro ep' hep' _ _ _
  simpa [Table.mem_def] using (show ep' ∈ [storedEndpoint] from hep')

theorem toolDefinitionChanged_prefixed :
    toolDefinitionChanged noFaults ['p', '_', 't'] (runOps prefixedOps (.empty false)) = .ok true := by
  have h : ToolIntegrity.changed storedEndpoint.definitionHash
      (liveToolDef ['p', '_', 't'] storedEndpoint) = true := by decide +kernel
  have hf : findEndpoint noFaults ['p', '_', 't'] (runOps prefixedOps (.empty false)) =
      .ok (some (storedEndpoint, prefixedConnection)) := by
    refine congrArg Except.ok (findIn_eq_some ?_ enabledConn_prefixedOps resolvedName_prefixed
      (onlyResolves_prefixedOps _))
    rw [endpoints_prefixedOps]
    exact List.mem_singleton_self _
  have hp : Text.hasPrefix ['p', '_', 't'] adminPrefix = false := by decide
  simp only [toolDefinitionChanged, hp, Bool.false_eq_true, if_false, hf, h]

/-- A tool that was saved and never touched is refused when its connection has a prefix. -/
theorem not_neverRefused_prefixed :
    ¬ NeverRefused (runOps prefixedOps (.empty false)) (resolvedName prefixedConnection storedEndpoint) := by
  intro h
  have h1 := h.1
  rw [resolvedName_prefixed, toolDefinitionChanged_prefixed] at h1
  cases h1

theorem prefixed_no_collision :
    ¬ (prefixedConnection.toolPrefix = [] ∨ ToolIntegrity.Collide
      (liveToolDef (resolvedName prefixedConnection storedEndpoint) storedEndpoint)
      (DB.savedToolDef storedEndpoint)) := by
  intro hc
  have hmem : storedEndpoint ∈ (runOps prefixedOps (.empty false)).endpoints :=
    List.mem_singleton_self _
  have h := (neverRefused_runOps_iff false prefixedOps storedEndpoint prefixedConnection hmem
    enabledConn_prefixedOps (by decide) (onlyResolves_prefixedOps _)).mpr hc
  have h1 := h.1
  rw [resolvedName_prefixed, toolDefinitionChanged_prefixed] at h1
  cases h1

end Janus.Server
