import Janus.Lib.Placeholders
import Janus.Storage

/-!
# The statements of the store under both drivers

The store writes its statements with question marks, and numbers them for Postgres. Every
statement that it runs takes the arguments that it is given, in their order, under either driver.
-/

namespace Janus.Storage

set_option autoImplicit false

open Placeholders (Piece Portable bound readMarks readNumbered number)

inductive Driver where
  | sqlite3
  | postgres
  deriving Repr, DecidableEq

/-- The driver that `NewDB` chooses. -/
def driverFor (dbPath : Str) : Driver :=
  if Text.hasPrefix dbPath "postgres://".toList || Text.hasPrefix dbPath "postgresql://".toList then .postgres
  else .sqlite3

def Driver.query : Driver → Str → Str
  | .postgres, q => number 1 q
  | .sqlite3, q => q

/-- How a database reads the parameters of a statement. -/
def Driver.reads : Driver → Str → List Piece
  | .postgres => readNumbered
  | .sqlite3 => readMarks 1

/-- A portable statement says the same under either driver. -/
theorem reads_query {q : Str} (h : Portable q) (d : Driver) : d.reads (d.query q) = readMarks 1 q := by
  cases d with
  | postgres => exact Placeholders.readNumbered_number_iff.mpr h
  | sqlite3 => rfl

def words (ws : List String) : Str := ws.flatMap String.toList

def selectConnections : Str := words
  ["SELECT id, name, description, ", "base_url, auth_type, ", "auth_secret_ref, enabled, ",
    "COALESCE(tool_prefix, '') FROM ", "api_connections"]

def selectConnection : Str := selectConnections ++ " WHERE id = ?".toList

def upsertConnection : Str := words
  ["\n\t\tINSERT INTO api_connections ", "(id, name, description, ", "base_url, auth_type, ",
    "auth_secret_ref, enabled, ", "tool_prefix, updated_at)\n\t\t",
    "VALUES (?, ?, ?, ?, ?, ?, ?, ?, ", "CURRENT_TIMESTAMP)\n\t\tON ",
    "CONFLICT(id) DO UPDATE SET\n\t\t\t", "name = excluded.name,\n\t\t\t", "description = ",
    "excluded.description,\n\t\t\t", "base_url = ", "excluded.base_url,\n\t\t\tauth_type ",
    "= excluded.auth_type,\n\t\t\t", "auth_secret_ref = ", "excluded.auth_secret_ref,\n\t\t\t",
    "enabled = excluded.enabled,\n\t\t\t", "tool_prefix = ", "excluded.tool_prefix,\n\t\t\t",
    "updated_at = CURRENT_TIMESTAMP\n\t"]

def removeConnection : Str := words
  ["DELETE FROM api_connections ", "WHERE id = ?"]

def endpointColumns : Str := words
  ["SELECT id, connection_id, ", "tool_name, tool_description, ", "path, method, ",
    "parameters_schema, template"]

def selectAllEndpoints : Str := endpointColumns ++ words
  [", COALESCE(definition_hash, ", "''), COALESCE(version, 1) FROM ", "api_endpoints"]

def selectEndpoints : Str := selectAllEndpoints ++ " WHERE connection_id = ?".toList

def selectEndpointByToolName : Str := endpointColumns ++ words
  [" FROM api_endpoints WHERE ", "tool_name = ?"]

def selectVersion : Str := words
  ["SELECT ", "COALESCE(definition_hash, ''), ", "COALESCE(version, 1) FROM ",
    "api_endpoints WHERE id = ?"]

def insertEndpoint : Str := words
  ["\n\t\tINSERT INTO api_endpoints ", "(id, connection_id, tool_name, ",
    "tool_description, path, method, ", "parameters_schema, template, ",
    "definition_hash, version, ", "updated_at)\n\t\tVALUES (?, ?, ?, ", "?, ?, ?, ?, ?, ?, ?, ",
    "CURRENT_TIMESTAMP)\n\t\tON ", "CONFLICT(id) DO UPDATE SET\n\t\t\t", "connection_id = ",
    "excluded.connection_id,\n\t\t\t", "tool_name = ", "excluded.tool_name,\n\t\t\t",
    "tool_description = ", "excluded.tool_description,\n\t\t\t",
    "path = excluded.path,\n\t\t\tmethod ", "= excluded.method,\n\t\t\t", "parameters_schema = ",
    "excluded.parameters_schema,\n\t\t\t", "template = ", "excluded.template,\n\t\t\t",
    "definition_hash = ", "excluded.definition_hash,\n\t\t\t",
    "version = excluded.version,\n\t\t\t", "updated_at = CURRENT_TIMESTAMP\n\t"]

def removeEndpoint : Str := words
  ["DELETE FROM api_endpoints WHERE ", "id = ?"]

def insertAudit : Str := words
  ["\n\t\tINSERT INTO audit_logs (id, ", "client_identity, tool_name, ", "status, duration_ms, ",
    "error_message, timestamp)\n\t\t", "VALUES (?, ?, ?, ?, ?, ?, ", "CURRENT_TIMESTAMP)\n\t"]

def selectAudit : Str := words
  ["SELECT id, timestamp, ", "client_identity, tool_name, ", "status, duration_ms, ",
    "COALESCE(error_message, '') ", "FROM audit_logs ORDER BY ", "timestamp DESC LIMIT 100"]

def selectTokens : Str := words
  ["SELECT token, client_name, ", "client_role, scopes, enabled ", "FROM client_tokens"]

def selectToken : Str := selectTokens ++ " WHERE token = ?".toList

def upsertToken : Str := words
  ["\n\t\tINSERT INTO client_tokens ", "(token, client_name, ", "client_role, scopes, enabled, ",
    "updated_at)\n\t\tVALUES (?, ?, ?, ", "?, ?, CURRENT_TIMESTAMP)\n\t\tON ",
    "CONFLICT(token) DO UPDATE ", "SET\n\t\t\tclient_name = ", "excluded.client_name,\n\t\t\t",
    "client_role = ", "excluded.client_role,\n\t\t\tscopes ",
    "= excluded.scopes,\n\t\t\tenabled = ", "excluded.enabled,\n\t\t\tupdated_at ",
    "= CURRENT_TIMESTAMP\n\t"]

def removeToken : Str := words
  ["DELETE FROM client_tokens WHERE ", "token = ?"]

def removeTokenByName : Str := words
  ["DELETE FROM client_tokens WHERE ", "client_name = ?"]

/-- Every statement of the store that goes through `query`, with the number of arguments that it is
given. -/
def statements : List (Str × Nat) :=
  [(selectConnections, 0), (selectConnection, 1), (upsertConnection, 8), (removeConnection, 1),
    (selectEndpoints, 1), (selectAllEndpoints, 0), (selectEndpointByToolName, 1), (selectVersion, 1),
    (insertEndpoint, 10), (removeEndpoint, 1), (insertAudit, 6), (selectAudit, 0), (selectToken, 1),
    (upsertToken, 5), (removeToken, 1), (removeTokenByName, 1), (selectTokens, 0)]

theorem portable_statements : ∀ st ∈ statements, Portable st.1 ∧ st.1.count '?' = st.2 := by
  decide +kernel

/-- Every statement of the store takes its arguments in the same places under both drivers. -/
theorem statements_agree {α : Type} {st : Str × Nat} (hst : st ∈ statements) {args : List α}
    (hargs : args.length = st.2) :
    ∃ filled, ∀ d : Driver, bound args (d.reads (d.query st.1)) = some filled := by
  obtain ⟨hportable, hcount⟩ := portable_statements st hst
  obtain ⟨filled, hfilled⟩ := Placeholders.bound_readMarks (hargs.trans hcount.symm)
  exact ⟨filled, fun d => by rw [reads_query hportable d]; exact hfilled⟩

theorem selectToken_mem : (selectToken, 1) ∈ statements := by simp [statements]

theorem statements_agree_selectToken : ∃ filled, ∀ d : Driver,
    bound ["t"] (d.reads (d.query selectToken)) = some filled :=
  statements_agree selectToken_mem rfl

end Janus.Storage
