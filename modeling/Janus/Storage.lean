import Janus.Lib.Table
import Janus.ToolIntegrity

/-!
# The database

Embedding of `pkg/storage`: connections, endpoints and client tokens in tables
with a primary key and a unique column. A write either fails and leaves every
table as it was, or has its full effect; `fails` says that the store refuses the
statement for a reason of its own. Foreign keys are enforced by Postgres, and by
SQLite only when the data source asks for it.
-/

namespace Janus.Storage

set_option autoImplicit false

structure APIConnection where
  id : Str
  name : Str
  description : Str
  baseURL : Str
  authType : Str
  authSecretRef : Str
  enabled : Bool
  toolPrefix : Str
  deriving Repr, DecidableEq

structure APIEndpoint where
  id : Str
  connectionID : Str
  toolName : Str
  toolDescription : Str
  path : Str
  method : Str
  parametersSchema : Str
  template : Str
  definitionHash : Str
  version : Nat
  deriving Repr, DecidableEq

structure ClientToken where
  token : Str
  clientName : Str
  clientRole : Str
  scopes : Str
  enabled : Bool
  deriving Repr, DecidableEq

structure DB where
  foreignKeys : Bool
  connections : Table APIConnection APIConnection.id APIConnection.name
  endpoints : Table APIEndpoint APIEndpoint.id APIEndpoint.toolName
  tokens : Table ClientToken ClientToken.token ClientToken.clientName

inductive StoreError where
  | unavailable
  | uniqueViolation
  | foreignKeyViolation
  deriving Repr, DecidableEq

namespace DB

def empty (foreignKeys : Bool) : DB := ⟨foreignKeys, .empty, .empty, .empty⟩

def getConnections (db : DB) : List APIConnection := db.connections.rows

def getAllEndpoints (db : DB) : List APIEndpoint := db.endpoints.rows

def saveConnection (fails : Bool) (conn : APIConnection) (db : DB) : Except StoreError DB :=
  if fails then .error .unavailable
  else
    match db.connections.upsert conn with
    | none => .error .uniqueViolation
    | some t => .ok { db with connections := t }

def deleteConnection (fails : Bool) (id : Str) (db : DB) : Except StoreError DB :=
  if fails then .error .unavailable
  else .ok { db with
    connections := db.connections.delete id
    endpoints := if db.foreignKeys then db.endpoints.keep fun e => e.connectionID ≠ id else db.endpoints }

/-- The definition whose hash `SaveEndpoint` stores. -/
def savedToolDef (ep : APIEndpoint) : ToolIntegrity.ToolDef where
  name := ep.toolName
  description := ep.toolDescription
  method := ep.method
  path := ep.path
  parametersSchema := ep.parametersSchema

/-- The row that `SaveEndpoint` writes: the hash of the definition, and a version that
grows when the hash differs from the stored one. -/
def pinned (db : DB) (ep : APIEndpoint) : APIEndpoint :=
  let newHash := ToolIntegrity.hash (savedToolDef ep)
  let version :=
    match db.endpoints.find ep.id with
    | some old => if old.definitionHash ≠ newHash then old.version + 1 else old.version
    | none => 1
  { ep with definitionHash := newHash, version := version }

def saveEndpoint (fails : Bool) (ep : APIEndpoint) (db : DB) :
    Except StoreError DB :=
  if fails then .error .unavailable
  else if db.foreignKeys && (db.connections.find ep.connectionID).isNone then
    .error .foreignKeyViolation
  else
    match db.endpoints.upsert (pinned db ep) with
    | none => .error .uniqueViolation
    | some t => .ok { db with endpoints := t }

def deleteEndpoint (fails : Bool) (id : Str) (db : DB) : Except StoreError DB :=
  if fails then .error .unavailable else .ok { db with endpoints := db.endpoints.delete id }

def hashToken (token : Str) : Str := Sha256.sha256 token

/-- The row of a token, its stored hash blanked. -/
def getClientToken (token : Str) (db : DB) : Option ClientToken :=
  (db.tokens.find (hashToken token)).map fun t => { t with token := [] }

def saveClientToken (fails : Bool) (t : ClientToken) (db : DB) :
    Except StoreError DB :=
  if fails then .error .unavailable
  else
    match db.tokens.upsert { t with token := hashToken t.token } with
    | none => .error .uniqueViolation
    | some ts => .ok { db with tokens := ts }

def deleteClientToken (fails : Bool) (token : Str) (db : DB) :
    Except StoreError DB :=
  if fails then .error .unavailable
  else .ok { db with tokens := db.tokens.delete (hashToken token) }

def deleteClientTokenByName (fails : Bool) (name : Str) (db : DB) : Except StoreError DB :=
  if fails then .error .unavailable
  else .ok { db with tokens := db.tokens.keep fun t => t.clientName ≠ name }

variable {fails : Bool} {db db' : DB}

theorem saveConnection_ok {conn : APIConnection} (h : db.saveConnection fails conn = .ok db') :
    fails = false ∧ ∃ t, db.connections.upsert conn = some t ∧ db' = { db with connections := t } := by
  unfold saveConnection at h
  split at h
  · cases h
  · rename_i hf
    cases hu : db.connections.upsert conn with
    | none => simp [hu] at h
    | some t =>
      simp only [hu, Except.ok.injEq] at h
      exact ⟨by simpa using hf, t, rfl, h.symm⟩

theorem saveEndpoint_ok {ep : APIEndpoint} (h : db.saveEndpoint fails ep = .ok db') :
    fails = false ∧ ∃ t, db.endpoints.upsert (pinned db ep) = some t ∧
      db' = { db with endpoints := t } := by
  unfold saveEndpoint at h
  split at h
  · cases h
  · rename_i hf
    split at h
    · cases h
    · cases hu : db.endpoints.upsert (pinned db ep) with
      | none => simp [hu] at h
      | some t =>
        simp only [hu, Except.ok.injEq] at h
        exact ⟨by simpa using hf, t, rfl, h.symm⟩

theorem deleteConnection_ok {id : Str} (h : db.deleteConnection fails id = .ok db') :
    db'.connections = db.connections.delete id ∧ ∀ e ∈ db'.endpoints, e ∈ db.endpoints := by
  unfold deleteConnection at h
  split at h
  · cases h
  · cases h
    refine ⟨rfl, ?_⟩
    intro e he
    dsimp only at he
    split at he
    · exact (Table.mem_keep.mp he).1
    · exact he

theorem deleteEndpoint_ok {id : Str} (h : db.deleteEndpoint fails id = .ok db') :
    db' = { db with endpoints := db.endpoints.delete id } := by
  unfold deleteEndpoint at h
  split at h
  · cases h
  · cases h
    rfl

end DB
end Janus.Storage
