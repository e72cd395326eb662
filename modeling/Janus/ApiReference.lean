import Janus.Lib.JsonDecoded
import Janus.PortalRecords

/-!
# The consolidated API reference

Embedding of `handleOpenAPI`: the document describes the administrative paths, which are a
constant of the source, and one path for every endpoint of an enabled connection. The lower
case of the strings library and the order in which a map is walked are given.
-/

namespace Janus.PortalServer

set_option autoImplicit false

open Storage

/-- The operations of every path by their methods. -/
abbrev Paths := List (Str × List (Str × Json))

def object (members : List (String × Json)) : Json := .obj (members.map fun m => (m.1.toList, m.2))

def strings (xs : List String) : Json := .arr (xs.map fun x => .str x.toList)

def text (s : String) : Json := .str s.toList

def describedResponses (responses : List (String × String)) : Json :=
  object (responses.map fun r => (r.1, object [("description", text r.2)]))

/-- A body that is an object of the given properties. -/
def bodySchema (properties : List (String × String)) (required : List String) : Json :=
  object [("required", .bool true), ("content", object [("application/json", object [("schema",
    object [("type", text "object"),
      ("properties", object (properties.map fun p => (p.1, object [("type", text p.2)]))),
      ("required", strings required)])])])]

def nameParameter (name place : String) : Json := .arr [object
  [("name", text name), ("in", text place), ("required", .bool true),
    ("schema", object [("type", text "string")])]]

def adminOperation (method tag summary description : String) (more : List (String × Json))
    (responses : List (String × String)) : Str × Json :=
  (method.toList, object ([("tags", strings [tag]), ("summary", text summary),
    ("description", text description)] ++ more ++ [("responses", describedResponses responses)]))

def administration : String := "Gateway Administration"

/-- What `adminPathsJSON` is read into. -/
def adminPaths : Paths :=
  [("/api/auth/login".toList, [
      adminOperation "post" administration "Authenticate Portal User"
        "Exchanges admin credentials for a JWT token"
        [("requestBody", bodySchema [("username", "string"), ("password", "string")]
          ["username", "password"])]
        [("200", "Successfully authenticated"), ("401", "Invalid credentials")]]),
    ("/api/connections".toList, [
      adminOperation "get" administration "List API Connections"
        "Returns list of registered target connections" [] [("200", "Array of connections")],
      adminOperation "post" administration "Save/Create API Connection"
        "Registers or updates a connection"
        [("requestBody", bodySchema [("id", "string"), ("name", "string"), ("description", "string"),
          ("base_url", "string"), ("auth_type", "string"), ("auth_secret_ref", "string"),
          ("enabled", "boolean"), ("tool_prefix", "string")] ["name", "base_url"])]
        [("200", "Connection successfully saved")]]),
    ("/api/connections/\x7bid\x7d".toList, [
      adminOperation "delete" administration "Delete API Connection"
        "Deletes a connection and all its endpoints" [("parameters", nameParameter "id" "path")]
        [("204", "Connection deleted")]]),
    ("/api/endpoints".toList, [
      adminOperation "get" administration "List Tool Endpoints"
        "Returns all registered endpoints/tools" [] [("200", "Array of tools")],
      adminOperation "post" administration "Save/Create Tool Endpoint"
        "Registers or updates a tool endpoint"
        [("requestBody", bodySchema [("id", "string"), ("connection_id", "string"),
          ("tool_name", "string"), ("tool_description", "string"), ("path", "string"),
          ("method", "string"), ("parameters_schema", "string"), ("template", "string")]
          ["connection_id", "tool_name", "path"])]
        [("200", "Endpoint successfully saved")]]),
    ("/api/endpoints/\x7bid\x7d".toList, [
      adminOperation "delete" administration "Delete Tool Endpoint"
        "Deletes a registered endpoint/tool" [("parameters", nameParameter "id" "path")]
        [("204", "Endpoint deleted")]]),
    ("/api/vault".toList, [
      adminOperation "get" administration "List Vault Keys"
        "Lists all keys in the Vault (values redacted)" [] [("200", "List of vault keys")],
      adminOperation "post" administration "Write Vault Secret"
        "Stores a credentials token key-value pair in the vault"
        [("requestBody", bodySchema [("key", "string"), ("value", "string")] ["key", "value"])]
        [("200", "Secret stored")],
      adminOperation "delete" administration "Delete Vault Secret"
        "Removes a secret key from the vault" [("parameters", nameParameter "key" "query")]
        [("204", "Secret deleted")]]),
    ("/api/logs".toList, [
      adminOperation "get" administration "List Audit Logs"
        "Fetch last 100 tool executions history" [] [("200", "Array of audit logs")]]),
    ("/api/settings".toList, [
      adminOperation "get" administration "Get Server Settings"
        "Retrieve active configuration files and services setup" []
        [("200", "Server settings object")]]),
    ("/metrics".toList, [
      adminOperation "get" "Gateway Monitoring" "Scrape Telemetry Metrics"
        "Returns scrapable Prometheus stats" [] [("200", "Prometheus raw stream output")]])]

structure PropertyDoc where
  type : Str
  description : Str
  deriving Repr, DecidableEq

structure SchemaDoc where
  properties : List (Str × PropertyDoc)
  required : List Str

def decodeProperty : Json → Option PropertyDoc :=
  Decode.record (fun p k v =>
    if Text.equalFold k "type".toList then (Decode.str p.type v).map fun x => { p with type := x }
    else if Text.equalFold k "description".toList then
      (Decode.str p.description v).map fun x => { p with description := x }
    else some p) ⟨[], []⟩

def decodeSchema : Json → Option SchemaDoc :=
  Decode.record (fun s k v =>
    if Text.equalFold k "properties".toList then
      (Decode.map decodeProperty s.properties v).map fun x => { s with properties := x }
    else if Text.equalFold k "required".toList then
      (Decode.list [] Decode.str s.required v).map fun x => { s with required := x }
    else some s) ⟨[], []⟩

/-- The order in which the properties are walked. -/
structure WalkOrder where
  walk : List (Str × PropertyDoc) → List (Str × PropertyDoc)
  perm : ∀ ps, (walk ps).Perm ps

/-- A property of the schema. One that the path has a placeholder for is a required part of it. -/
def parameterDoc (path : Str) (required : List Str) (p : Str × PropertyDoc) : Json :=
  let inPath := Text.containsSub path ("\x7b\x7b".toList ++ p.1 ++ "\x7d\x7d".toList)
  object [("name", .str p.1), ("in", text (if inPath then "path" else "query")),
    ("required", .bool (inPath || required.contains p.1)), ("description", .str p.2.description),
    ("schema", object [("type", .str p.2.type)])]

def parameterDocs (order : WalkOrder) (ep : APIEndpoint) : Json :=
  if ep.parametersSchema = [] then .null
  else
    match (JsonText.parse ep.parametersSchema).bind decodeSchema with
    | none => .null
    | some s => listJson (parameterDoc ep.path s.required) (order.walk s.properties)

structure ReferenceEnv where
  /-- `strings.ToLower`. -/
  toLower : Str → Str
  order : WalkOrder

def namespaceSlug (env : ReferenceEnv) (name : Str) : Str :=
  env.toLower (Text.replaceAll name [' '] ['-'])

def docPath (env : ReferenceEnv) (conn : APIConnection) (ep : APIEndpoint) : Str :=
  "/connections/".toList ++ namespaceSlug env conn.name ++ "/tools/".toList ++ ep.toolName

def toolOperation (env : ReferenceEnv) (conn : APIConnection) (ep : APIEndpoint) : Json := object
  [("tags", .arr [.str ("Exposed MCP Tools - ".toList ++ conn.name)]),
    ("summary", .str ep.toolDescription),
    ("description", .str ("MCP Tool: ".toList ++ ep.toolName ++
      ". Proxied to downstream target: ".toList ++ conn.baseURL ++ ep.path)),
    ("operationId", .str ep.toolName),
    ("parameters", parameterDocs env.order ep),
    ("responses", object [("200", object [("description", text "Successful call execution"),
      ("content", object [("application/json", object [("schema",
        object [("type", text "object")])])])])])]

/-- One turn of the loop over the endpoints. -/
def documentTool (env : ReferenceEnv) (conns : List APIConnection) (paths : Paths)
    (ep : APIEndpoint) : Paths :=
  match Server.enabledConn conns ep with
  | none => paths
  | some conn =>
    let path := docPath env conn ep
    setMember path (setMember (env.toLower ep.method) (toolOperation env conn ep)
      ((lookup path paths).getD [])) paths

def documentedPaths (env : ReferenceEnv) (conns : List APIConnection) (eps : List APIEndpoint) : Paths :=
  eps.foldl (documentTool env conns) adminPaths

/-- The document over the given paths. -/
def referenceOf (paths : Paths) : Json :=
  (object
    [("openapi", text "3.0.0"),
      ("info", object [("title", text "Janus API Gateway Consolidated Reference"),
        ("description", text ("Unified OpenAPI reference mapping all active connection endpoints " ++
          "exposed as MCP tools alongside Gateway administration APIs.")),
        ("version", text "1.0.0")]),
      ("paths", .obj (paths.map fun p => (p.1, .obj p.2))),
      ("components", object [("securitySchemes", object [("BearerAuth", object
        [("type", text "http"), ("scheme", text "bearer"), ("bearerFormat", text "JWT")])])]),
      ("security", .arr [object [("BearerAuth", .arr [])]])]).sorted

def apiReference (env : ReferenceEnv) (conns : List APIConnection) (eps : List APIEndpoint) : Json :=
  referenceOf (documentedPaths env conns eps)

/-- The path of a listed tool with its one operation. -/
def documented (env : ReferenceEnv) (entry : Server.Entry) : Option (Str × List (Str × Json)) :=
  match entry.origin with
  | .endpoint ep conn => some (docPath env conn ep, [(env.toLower ep.method, toolOperation env conn ep)])
  | .admin _ => none

/-- The paths of the tools, if no two of them are the same. -/
def toolPaths (env : ReferenceEnv) (conns : List APIConnection) (eps : List APIEndpoint) : Paths :=
  (Server.endpointEntries eps conns [['*']]).filterMap (documented env)

section Documented

variable {env : ReferenceEnv} {conns : List APIConnection}

theorem toolPaths_cons (ep : APIEndpoint) (eps : List APIEndpoint) :
    toolPaths env conns (ep :: eps) = (Server.enabledConn conns ep).toList.map
      (fun conn => (docPath env conn ep, [(env.toLower ep.method, toolOperation env conn ep)])) ++
        toolPaths env conns eps := by
  have hall (name : Str) : Server.matchScope name [['*']] = true := by
    simp [Server.matchScope, Server.matchesOne]
  unfold toolPaths Server.endpointEntries
  rw [List.filterMap_cons]
  cases hc : Server.enabledConn conns ep with
  | none => rfl
  | some conn =>
    simp only [hall, if_true]
    rfl

/-- The last part of a path that is put together at a slash. -/
theorem last_part_inj {xs ys n m : Str} (hn : '/' ∉ n) (hm : '/' ∉ m)
    (h : xs ++ '/' :: n = ys ++ '/' :: m) : n = m := by
  have htake (p q : Str) (hq : '/' ∉ q) : (p ++ '/' :: q).reverse.takeWhile (· ≠ '/') = q.reverse := by
    rw [List.reverse_append, List.reverse_cons, List.append_assoc, List.takeWhile_append_of_pos]
    · simp
    · intro c hc
      rw [decide_eq_true_eq]
      rintro rfl
      exact hq (List.mem_reverse.mp hc)
  have hrev := htake ys m hm
  rw [← h, htake xs n hn] at hrev
  exact List.reverse_injective hrev

theorem docPath_eq (conn : APIConnection) (ep : APIEndpoint) : docPath env conn ep =
    ("/connections/".toList ++ namespaceSlug env conn.name ++ "/tools".toList) ++ '/' :: ep.toolName := by
  unfold docPath
  simp

theorem docPath_ne {c c' : APIConnection} {e e' : APIEndpoint} (he : '/' ∉ e.toolName)
    (he' : '/' ∉ e'.toolName) (hne : e.toolName ≠ e'.toolName) : docPath env c e ≠ docPath env c' e' := by
  rw [docPath_eq, docPath_eq]
  exact fun h => hne (last_part_inj he he' h)

theorem docPath_notAdmin (conn : APIConnection) (ep : APIEndpoint) :
    docPath env conn ep ∉ adminPaths.map Prod.fst := by
  have hadmin : ∀ k ∈ adminPaths.map Prod.fst, k.take 2 ≠ "/c".toList := by decide
  intro h
  refine hadmin _ h ?_
  unfold docPath
  rfl

/-- The loop appends the path of every tool whose path is new. -/
theorem foldl_documentTool (env : ReferenceEnv) (conns : List APIConnection) {eps : List APIEndpoint}
    {paths : Paths} (hslash : ∀ e ∈ eps, '/' ∉ e.toolName)
    (hnames : (eps.map APIEndpoint.toolName).Nodup)
    (hfresh : ∀ e ∈ eps, ∀ c, docPath env c e ∉ paths.map Prod.fst) :
    eps.foldl (documentTool env conns) paths = paths ++ toolPaths env conns eps := by
  induction eps generalizing paths with
  | nil => exact (List.append_nil paths).symm
  | cons e eps ih =>
    rw [List.map_cons, List.nodup_cons] at hnames
    have hrest : ∀ e' ∈ eps, '/' ∉ e'.toolName := fun e' he' => hslash e' (List.mem_cons_of_mem e he')
    rw [List.foldl_cons, toolPaths_cons]
    cases hc : Server.enabledConn conns e with
    | none =>
      have hskip : documentTool env conns paths e = paths := by
        unfold documentTool
        rw [hc]
      rw [hskip]
      exact ih hrest hnames.2 fun e' he' => hfresh e' (List.mem_cons_of_mem e he')
    | some conn =>
      have hnew := hfresh e List.mem_cons_self conn
      have hadd : documentTool env conns paths e = paths ++
          [(docPath env conn e, [(env.toLower e.method, toolOperation env conn e)])] := by
        unfold documentTool
        rw [hc]
        dsimp only
        rw [lookup_of_fresh hnew, setMember_of_fresh _ hnew]
        rfl
      have hlater : ∀ e' ∈ eps, ∀ c, docPath env c e' ∉ (paths ++
          [(docPath env conn e, [(env.toLower e.method, toolOperation env conn e)])]).map Prod.fst := by
        intro e' he' c hmem
        rw [List.map_append, List.mem_append] at hmem
        rcases hmem with hold | hnew'
        · exact hfresh e' (List.mem_cons_of_mem e he') c hold
        · have hsame := List.mem_singleton.mp hnew'
          refine docPath_ne (hrest e' he') (hslash e List.mem_cons_self) ?_ hsame
          intro hname
          exact hnames.1 (List.mem_map.mpr ⟨e', he', hname⟩)
      rw [hadd, ih hrest hnames.2 hlater, List.append_assoc]
      rfl

theorem mem_toolPaths {eps : List APIEndpoint} {path : Str}
    (h : path ∈ (toolPaths env conns eps).map Prod.fst) : ∃ e ∈ eps, ∃ c, path = docPath env c e := by
  induction eps with
  | nil => cases h
  | cons e eps ih =>
    rw [toolPaths_cons, List.map_append, List.mem_append] at h
    rcases h with hone | hrest
    · obtain ⟨m, hm, rfl⟩ := List.mem_map.mp hone
      obtain ⟨c, _, rfl⟩ := List.mem_map.mp hm
      exact ⟨e, List.mem_cons_self, c, rfl⟩
    · obtain ⟨e', he', hpath⟩ := ih hrest
      exact ⟨e', List.mem_cons_of_mem e he', hpath⟩

theorem nodup_toolPaths {eps : List APIEndpoint} (hslash : ∀ e ∈ eps, '/' ∉ e.toolName)
    (hnames : (eps.map APIEndpoint.toolName).Nodup) : ((toolPaths env conns eps).map Prod.fst).Nodup := by
  induction eps with
  | nil => exact List.nodup_nil
  | cons e eps ih =>
    rw [List.map_cons, List.nodup_cons] at hnames
    have hrest : ∀ e' ∈ eps, '/' ∉ e'.toolName := fun e' he' => hslash e' (List.mem_cons_of_mem e he')
    rw [toolPaths_cons, List.map_append]
    cases Server.enabledConn conns e with
    | none => exact ih hrest hnames.2
    | some conn =>
      refine List.nodup_cons.mpr ⟨?_, ih hrest hnames.2⟩
      intro hmem
      obtain ⟨e', he', c, hpath⟩ := mem_toolPaths hmem
      refine docPath_ne (hslash e List.mem_cons_self) (hrest e' he') ?_ hpath
      intro hname
      exact hnames.1 (List.mem_map.mpr ⟨e', he', hname.symm⟩)

end Documented

/-- The reference documents, after the administrative paths, exactly the tools that a client without
restrictions is listed, each under a path of its own, if no tool has a slash in its name. -/
theorem reference_lists_tools (env : ReferenceEnv) (db : DB)
    (hslash : ∀ e ∈ db.getAllEndpoints, '/' ∉ e.toolName) :
    apiReference env db.getConnections db.getAllEndpoints =
        referenceOf (adminPaths ++ toolPaths env db.getConnections db.getAllEndpoints) ∧
      ((adminPaths ++ toolPaths env db.getConnections db.getAllEndpoints).map Prod.fst).Nodup := by
  have hpaths := foldl_documentTool env db.getConnections hslash db.endpoints.uniq_nodup
    fun e _ c => docPath_notAdmin c e
  refine ⟨congrArg referenceOf hpaths, ?_⟩
  rw [List.map_append, List.nodup_append]
  refine ⟨by decide, nodup_toolPaths hslash db.endpoints.uniq_nodup, ?_⟩
  rintro path hadmin _ htool rfl
  obtain ⟨e, _, c, rfl⟩ := mem_toolPaths htool
  exact docPath_notAdmin c e hadmin

/-- A connection with two tools. -/
def stockDB : DB where
  foreignKeys := false
  connections := ⟨[⟨['c'], "Stock".toList, [], "http://stock".toList, "none".toList, [], true, []⟩],
    by decide, by decide⟩
  endpoints := ⟨[⟨['1'], ['c'], "get_item".toList, [], ['/'], "GET".toList, [], [], [], 1⟩,
    ⟨['2'], ['c'], "put_item".toList, [], ['/'], "PUT".toList, [], [], [], 1⟩], by decide, by decide⟩
  tokens := .empty

def listedOrder : WalkOrder := ⟨id, fun _ => .refl _⟩

def stockEnv : ReferenceEnv := ⟨Url.lower, listedOrder⟩

theorem reference_lists_tools_stockDB :
    apiReference stockEnv stockDB.getConnections stockDB.getAllEndpoints =
        referenceOf (adminPaths ++ toolPaths stockEnv stockDB.getConnections stockDB.getAllEndpoints) ∧
      ((adminPaths ++ toolPaths stockEnv stockDB.getConnections
        stockDB.getAllEndpoints).map Prod.fst).Nodup :=
  reference_lists_tools stockEnv stockDB (by decide)

end Janus.PortalServer
