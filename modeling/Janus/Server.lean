import Janus.Gateway
import Janus.Lib.Decode
import Janus.Redaction

/-!
# The MCP server

Embedding of the request handling of `pkg/mcp`: the listing of tools, the gates and
the dispatch of a tool call, the admin tools, and the audit entries. What the outside
decides during one request is read from `Env`.
-/

namespace Janus.Server

set_option autoImplicit false

open Storage Gateway Vault Redaction

structure JSONRPCRequest where
  method : Str
  params : Option Json
  id : Json
  deriving Repr, DecidableEq

structure CallToolRequest where
  name : Str
  arguments : Option Params
  deriving Repr, DecidableEq

structure Tool where
  name : Str
  description : Str
  inputSchema : Json
  «meta» : Option Json
  deriving Repr, DecidableEq

inductive RpcResult where
  | initialized
  | tools (ts : List Tool)
  | content (text : Str)
  deriving Repr, DecidableEq

structure JSONRPCError where
  code : Int
  message : Str
  deriving Repr, DecidableEq

structure JSONRPCResponse where
  id : Json
  result : Option RpcResult
  error : Option JSONRPCError
  deriving Repr, DecidableEq

structure AuditLogEntry where
  id : Str
  identity : Str
  tool : Str
  status : Str
  duration : Nat
  errMsg : Str
  redaction : Str
  deriving Repr, DecidableEq

structure MCPServer where
  db : DB
  client : Client
  vault : Provider
  redactor : Option Redactor
  toolPinningStrict : Bool
  auditCh : List AuditLogEntry

/-- The errors of the two reads that resolve a tool name. -/
structure ReadFaults where
  endpoints : Option Str
  connections : Option Str
  deriving Repr, DecidableEq

structure Env where
  call : CallEnv
  listReads : ReadFaults
  pinReads : ReadFaults
  callReads : ReadFaults
  rowID : Str
  logID : Str
  duration : Nat
  storeFails : Bool
  /-- The database driver's text of a refused statement. -/
  storeText : StoreError → Str
  vaultFault : Option Str
  nonce : Str

inductive AdminError where
  | missingArg (tool key : Str)
  | saveConnection (e : StoreError)
  | saveEndpoint (e : StoreError)
  | setSecret (e : VaultError)
  | unknownTool (name : Str)
  deriving Repr, DecidableEq

inductive CallError where
  | loadEndpoints (cause : Str)
  | loadConnections (cause : Str)
  | notFound (name : Str)
  | exec (e : ExecError)
  | admin (e : AdminError)
  deriving Repr, DecidableEq

def AdminError.message (storeText : StoreError → Str) : AdminError → Str
  | .missingArg tool key =>
    tool ++ ": missing or invalid required argument ".toList ++ Text.quote key
  | .saveConnection e => "failed to register connection: ".toList ++ storeText e
  | .saveEndpoint e => "failed to register tool endpoint: ".toList ++ storeText e
  | .setSecret e => "failed to register vault secret: ".toList ++ e.message
  | .unknownTool name => "unknown admin management tool ".toList ++ Text.quote name

def CallError.message (storeText : StoreError → Str) : CallError → Str
  | .loadEndpoints cause => "failed to load endpoints: ".toList ++ cause
  | .loadConnections cause => "failed to load connections: ".toList ++ cause
  | .notFound name =>
    "tool ".toList ++ Text.quote name ++ " not found or target connection is disabled".toList
  | .exec e => e.message
  | .admin e => e.message storeText

def adminPrefix : Str := "admin_".toList

def matchesOne (toolName scope : Str) : Bool :=
  scope = ['*'] || (Text.hasSuffix scope ['*'] && Text.hasPrefix toolName scope.dropLast) ||
    toolName = scope

def matchScope (toolName : Str) (scopes : List Str) : Bool := scopes.any (matchesOne toolName)

def connMap (conns : List APIConnection) : List (Str × APIConnection) := conns.map fun c => (c.id, c)

def resolvedName (conn : APIConnection) (ep : APIEndpoint) : Str :=
  if conn.toolPrefix ≠ [] then conn.toolPrefix ++ ep.toolName else ep.toolName

/-- The connection of an endpoint, when it is there and enabled. -/
def enabledConn (conns : List APIConnection) (ep : APIEndpoint) : Option APIConnection :=
  (lookup ep.connectionID (connMap conns)).filter APIConnection.enabled

def emptySchema : Json :=
  .obj [("type".toList, .str "object".toList), ("properties".toList, .obj [])]

def schemaMap (schema : Str) : Json :=
  if schema = [] then emptySchema
  else
    match (JsonText.parse schema).bind Json.toAny with
    | some (.obj ms) => .obj ms
    | some .null => .null
    | _ => emptySchema

def toolMeta (ep : APIEndpoint) : Option Json :=
  if ep.definitionHash = [] then none
  else some (.obj ([("definitionHash".toList, .str ep.definitionHash)] ++
    match numLit? (natDigits ep.version) with
    | some n => if ep.version ≠ 0 then [("version".toList, .num n)] else []
    | none => []))

def property (name description : String) (type : String) : Str × Json :=
  (name.toList, .obj [("type".toList, .str type.toList), ("description".toList, .str description.toList)])

def adminSchema (properties : List (Str × Json)) (required : List String) : Json :=
  .obj [("type".toList, .str "object".toList), ("properties".toList, .obj properties),
    ("required".toList, .arr (required.map fun r => .str r.toList))]

inductive AdminTool where
  | addConnection
  | addEndpoint
  | registerVaultSecret
  deriving Repr, DecidableEq

def AdminTool.name : AdminTool → Str
  | .addConnection => "admin_add_connection".toList
  | .addEndpoint => "admin_add_endpoint".toList
  | .registerVaultSecret => "admin_register_vault_secret".toList

def AdminTool.all : List AdminTool := [.addConnection, .addEndpoint, .registerVaultSecret]

def AdminTool.tool : AdminTool → Tool
  | .addConnection =>
    ⟨AdminTool.name .addConnection,
      "Administratively register a new target API Connection into the Gateway.".toList,
      adminSchema [property "name" "Human name for connection" "string",
        property "base_url" "Base target URL, e.g. https://api.stripe.com" "string",
        property "auth_type" "none, basic, bearer, custom_headers" "string",
        property "auth_secret_ref" "Secret path inside the vault proxy" "string",
        property "tool_prefix" "Optional namespacing prefix prepended to all tools" "string",
        property "enabled" "Active state" "boolean"] ["name", "base_url", "auth_type"], none⟩
  | .addEndpoint =>
    ⟨AdminTool.name .addEndpoint,
      "Administratively expose a target HTTP endpoint path as an MCP tool.".toList,
      adminSchema [property "connection_id" "Target API connection ID UUID" "string",
        property "tool_name" "Exposed tool method identifier, e.g. get_billing_records" "string",
        property "tool_description"
          "Description explaining when the LLM should invoke this tool" "string",
        property "path" "Endpoint URI path, e.g. /v1/records/\x7b\x7bid\x7d\x7d" "string",
        property "method" "GET, POST, PUT, DELETE" "string",
        property "parameters_schema" "JSON Schema string defining expected variables" "string",
        property "template" "Optional JSON post template body mapping parameters" "string"]
        ["connection_id", "tool_name", "tool_description", "path", "method"], none⟩
  | .registerVaultSecret =>
    ⟨AdminTool.name .registerVaultSecret,
      "Administratively insert secure private credentials directly into the integrated Vault.".toList,
      adminSchema [property "key" "Secret lookup path reference" "string",
        property "value" "Plain private credential or JSON header map" "string"] ["key", "value"], none⟩

/-- What a name stands for. -/
inductive Target where
  | admin (t : AdminTool)
  | endpoint (ep : APIEndpoint) (conn : APIConnection)
  deriving Repr, DecidableEq

/-- A listed tool with what it was generated from. -/
structure Entry where
  tool : Tool
  origin : Target
  deriving Repr, DecidableEq

def endpointTool (ep : APIEndpoint) (conn : APIConnection) : Tool :=
  ⟨resolvedName conn ep, ep.toolDescription, schemaMap ep.parametersSchema, toolMeta ep⟩

def endpointEntries (endpoints : List APIEndpoint) (conns : List APIConnection) (scopes : List Str) :
    List Entry :=
  endpoints.filterMap fun ep =>
    match enabledConn conns ep with
    | none => none
    | some conn =>
      if matchScope (resolvedName conn ep) scopes then
        some ⟨endpointTool ep conn, .endpoint ep conn⟩
      else none

def adminEntries (role : Str) (scopes : List Str) : List Entry :=
  if role = "admin".toList then
    AdminTool.all.filterMap fun t =>
      if matchScope t.name scopes then some ⟨t.tool, .admin t⟩ else none
  else []

def listEntries (faults : ReadFaults) (role : Str) (scopes : List Str) (db : DB) :
    Except Str (List Entry) :=
  match faults.endpoints, faults.connections with
  | some cause, _ => .error cause
  | none, some cause => .error cause
  | none, none =>
    .ok (endpointEntries db.getAllEndpoints db.getConnections scopes ++ adminEntries role scopes)

def listTools (faults : ReadFaults) (role : Str) (scopes : List Str) (db : DB) :
    Except Str (List Tool) :=
  (listEntries faults role scopes db).map fun es => es.map Entry.tool

def findIn (conns : List APIConnection) (name : Str) :
    List APIEndpoint → Option (APIEndpoint × APIConnection)
  | [] => none
  | ep :: eps =>
    match enabledConn conns ep with
    | none => findIn conns name eps
    | some conn => if resolvedName conn ep = name then some (ep, conn) else findIn conns name eps

def findEndpoint (faults : ReadFaults) (name : Str) (db : DB) :
    Except CallError (Option (APIEndpoint × APIConnection)) :=
  match faults.endpoints, faults.connections with
  | some cause, _ => .error (.loadEndpoints cause)
  | none, some cause => .error (.loadConnections cause)
  | none, none => .ok (findIn db.getConnections name db.getAllEndpoints)

/-- The live definition that is compared with the stored hash. -/
def liveToolDef (name : Str) (ep : APIEndpoint) : ToolIntegrity.ToolDef where
  name := name
  description := ep.toolDescription
  method := ep.method
  path := ep.path
  parametersSchema := ep.parametersSchema

def toolDefinitionChanged (faults : ReadFaults) (name : Str) (db : DB) : Except CallError Bool :=
  if Text.hasPrefix name adminPrefix then .ok false
  else
    match findEndpoint faults name db with
    | .error e => .error e
    | .ok none => .ok false
    | .ok (some (ep, _)) => .ok (ToolIntegrity.changed ep.definitionHash (liveToolDef name ep))

/-- The direct routing of a call. -/
def dispatch (faults : ReadFaults) (name : Str) (db : DB) : Except CallError Target :=
  if Text.hasPrefix name adminPrefix then
    match AdminTool.all.find? fun t => t.name = name with
    | some t => .ok (.admin t)
    | none => .error (.admin (.unknownTool name))
  else
    match findEndpoint faults name db with
    | .error e => .error e
    | .ok none => .error (.notFound name)
    | .ok (some (ep, conn)) => .ok (.endpoint ep conn)

theorem dispatch_admin (faults : ReadFaults) (tool : AdminTool) (db : DB) :
    dispatch faults tool.name db = .ok (.admin tool) := by
  cases tool <;> rfl

def requireStringArg (tool : AdminTool) (args : Params) (key : String) : Except AdminError Str :=
  match lookup key.toList args with
  | some (.str v) => if v = [] then .error (.missingArg tool.name key.toList) else .ok v
  | _ => .error (.missingArg tool.name key.toList)

def optionalStringArg (args : Params) (key : String) : Str :=
  match lookup key.toList args with
  | some (.str v) => v
  | _ => []

def connectionArg (env : Env) (args : Params) : Except AdminError APIConnection := do
  let name ← requireStringArg .addConnection args "name"
  let baseURL ← requireStringArg .addConnection args "base_url"
  let authType ← requireStringArg .addConnection args "auth_type"
  return {
    id := env.rowID
    name := name
    description := []
    baseURL := baseURL
    authType := authType
    authSecretRef := optionalStringArg args "auth_secret_ref"
    enabled := match lookup "enabled".toList args with
      | some (.bool b) => b
      | _ => true
    toolPrefix := optionalStringArg args "tool_prefix" }

def endpointArg (env : Env) (args : Params) : Except AdminError APIEndpoint := do
  let connectionID ← requireStringArg .addEndpoint args "connection_id"
  let toolName ← requireStringArg .addEndpoint args "tool_name"
  let toolDescription ← requireStringArg .addEndpoint args "tool_description"
  let path ← requireStringArg .addEndpoint args "path"
  let method ← requireStringArg .addEndpoint args "method"
  return {
    id := env.rowID
    connectionID := connectionID
    toolName := toolName
    toolDescription := toolDescription
    path := path
    method := method
    parametersSchema := optionalStringArg args "parameters_schema"
    template := optionalStringArg args "template"
    definitionHash := []
    version := 0 }

def secretArg (args : Params) : Except AdminError (Str × Str) := do
  let key ← requireStringArg .registerVaultSecret args "key"
  let value ← requireStringArg .registerVaultSecret args "value"
  return (key, value)

def handleAdminTool (env : Env) (tool : AdminTool) (args : Params) (srv : MCPServer) :
    Except AdminError Str × MCPServer :=
  match tool with
  | .addConnection =>
    match connectionArg env args with
    | .error e => (.error e, srv)
    | .ok conn =>
      match srv.db.saveConnection env.storeFails conn with
      | .error e => (.error (.saveConnection e), srv)
      | .ok db =>
        (.ok ("Successfully registered connection ".toList ++ Text.quote conn.name ++
          ". ID: ".toList ++ conn.id), { srv with db := db })
  | .addEndpoint =>
    match endpointArg env args with
    | .error e => (.error e, srv)
    | .ok ep =>
      match srv.db.saveEndpoint env.storeFails ep with
      | .error e => (.error (.saveEndpoint e), srv)
      | .ok db =>
        (.ok ("Successfully registered tool ".toList ++ Text.quote ep.toolName ++
          ". ID: ".toList ++ ep.id), { srv with db := db })
  | .registerVaultSecret =>
    match secretArg args with
    | .error e => (.error e, srv)
    | .ok (key, value) =>
      match srv.vault.setSecret env.vaultFault env.nonce key value with
      | (vault, some e) => (.error (.setSecret e), { srv with vault := vault })
      | (vault, none) =>
        (.ok ("Successfully stored secret reference ".toList ++ Text.quote key),
          { srv with vault := vault })

def runTarget (env : Env) (target : Target) (args : Option Params) (srv : MCPServer) :
    Except CallError Str × MCPServer :=
  match target with
  | .admin tool =>
    let (result, srv) := handleAdminTool env tool (args.getD []) srv
    (result.mapError .admin, srv)
  | .endpoint ep conn =>
    let out := executeCall env.call srv.vault conn ep args srv.client
    (out.result.mapError .exec, { srv with client := out.client })

def callTool (env : Env) (name : Str) (args : Option Params) (srv : MCPServer) :
    Except CallError Str × MCPServer :=
  match dispatch env.callReads name srv.db with
  | .error e => (.error e, srv)
  | .ok target => runTarget env target args srv

def formatFindings (findings : List Finding) : Str :=
  Text.join [','] (findings.map fun f => f.class ++ '=' :: natDigits f.count)

/-- The channel holds a thousand entries; what does not fit is dropped. -/
def logAuditAsync (entry : AuditLogEntry) (srv : MCPServer) : MCPServer :=
  if srv.auditCh.length < 1000 then { srv with auditCh := srv.auditCh ++ [entry] } else srv

/-- Redaction applies to a non-empty argument map. -/
def redactArgs (redactor : Option Redactor) (args : Option Params) :
    Option Params × List Finding :=
  match redactor, args with
  | some r, some (m :: ms) =>
    let (out, findings) := r.redactMap (m :: ms)
    (some out, findings)
  | _, _ => (args, [])

def redactResult (redactor : Option Redactor) (text : Str) : Str × List Finding :=
  match redactor with
  | some r => r.redactBytes text
  | none => (text, [])

/-- The role and scope checks of a call. -/
def gate (role : Str) (scopes : List Str) (name : Str) : Option JSONRPCError :=
  if Text.hasPrefix name adminPrefix && role ≠ "admin".toList then
    some ⟨-32601, "Method ".toList ++ name ++
      " not found (Unauthorized: Admin role required)".toList⟩
  else if !matchScope name scopes then
    some ⟨-32601, "Method ".toList ++ name ++
      " not found (Unauthorized: Scope matching failed)".toList⟩
  else none

/-- The strict pinning check. -/
def pinCheck (env : Env) (name : Str) (srv : MCPServer) : Option JSONRPCError :=
  if !srv.toolPinningStrict then none
  else
    match toolDefinitionChanged env.pinReads name srv.db with
    | .error e => some ⟨-32603, e.message env.storeText⟩
    | .ok true => some ⟨-32001, "tool ".toList ++ Text.quote name ++
        " definition has changed since it was approved; refusing call (strict tool pinning enabled)".toList⟩
    | .ok false => none

/-- The answer to a call, the result redacted. -/
def callAnswer (env : Env) (redactor : Option Redactor) (outcome : Except CallError Str) :
    Option RpcResult × Option JSONRPCError :=
  match outcome with
  | .error e => (none, some ⟨-32603, e.message env.storeText⟩)
  | .ok text => (some (.content (redactResult redactor text).1), none)

def auditEntry (env : Env) (identity : Str) (tool : Str) (argFindings : List Finding)
    (redactor : Option Redactor) (outcome : Except CallError Str) : AuditLogEntry :=
  match outcome with
  | .error e =>
    ⟨env.logID, identity, tool, "failure".toList, env.duration, e.message env.storeText,
      formatFindings argFindings⟩
  | .ok text =>
    ⟨env.logID, identity, tool, "success".toList, env.duration, [],
      formatFindings (argFindings ++ (redactResult redactor text).2)⟩

/-- The call proper: arguments redacted, tool run, audit entry queued. -/
def runCall (env : Env) (identity : Str) (req : CallToolRequest) (srv : MCPServer) :
    (Option RpcResult × Option JSONRPCError) × MCPServer :=
  let args := redactArgs srv.redactor req.arguments
  let out := callTool env req.name args.1 srv
  (callAnswer env srv.redactor out.1,
    logAuditAsync (auditEntry env identity req.name args.2 srv.redactor out.1) out.2)

def decodeCall (params : Option Json) : Option CallToolRequest :=
  params.bind fun v => Decode.record (fun r k v =>
    if Text.equalFold k "name".toList then (Decode.str r.name v).map fun x => { r with name := x }
    else if Text.equalFold k "arguments".toList then
      match v with
      | .null => some { r with arguments := none }
      | v => (Decode.anyMap (r.arguments.getD []) v).map fun x => { r with arguments := some x }
    else some r) ⟨[], none⟩ v

def toolsCall (env : Env) (identity role : Str) (scopes : List Str) (params : Option Json)
    (srv : MCPServer) : (Option RpcResult × Option JSONRPCError) × MCPServer :=
  match decodeCall params with
  | none => ((none, some ⟨-32602, "Invalid tools/call params".toList⟩), srv)
  | some req =>
    match gate role scopes req.name with
    | some e => ((none, some e), srv)
    | none =>
      match pinCheck env req.name srv with
      | some e => ((none, some e), srv)
      | none => runCall env identity req srv

def toolsList (env : Env) (role : Str) (scopes : List Str) (srv : MCPServer) :
    Option RpcResult × Option JSONRPCError :=
  match listTools env.listReads role scopes srv.db with
  | .error cause => (none, some ⟨-32603, cause⟩)
  | .ok ts => (some (.tools ts), none)

def handleRequest (env : Env) (identity role : Str) (scopes : List Str) (req : JSONRPCRequest)
    (srv : MCPServer) : JSONRPCResponse × MCPServer :=
  if req.method = "initialize".toList then (⟨req.id, some .initialized, none⟩, srv)
  else if req.method = "tools/list".toList then
    let (result, error) := toolsList env role scopes srv
    (⟨req.id, result, error⟩, srv)
  else if req.method = "tools/call".toList then
    let ((result, error), srv) := toolsCall env identity role scopes req.params srv
    (⟨req.id, result, error⟩, srv)
  else
    (⟨req.id, none, some ⟨-32601, "Method ".toList ++ req.method ++ " not found".toList⟩⟩, srv)

end Janus.Server
