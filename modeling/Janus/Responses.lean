import Janus.Lib.JsonCompact
import Janus.Lib.NumberIntegers
import Janus.ListedCalls

/-!
# The text of responses

Responses as the encoder writes them: the fields of a struct in their order, the members of
a map by name, and a slice or a map that is nil as `null`. The listing of the tools is well
formed exactly when some tool is offered and no offered endpoint has `null` for its schema.
-/

namespace Janus.Server

set_option autoImplicit false

open Storage

/-- The tool, its metadata left out when there are none. -/
def Tool.json (t : Tool) : Json :=
  .obj ([("name".toList, .str t.name), ("description".toList, .str t.description),
    ("inputSchema".toList, t.inputSchema.sorted)] ++
    match t.meta with
    | none => []
    | some m => [("_meta".toList, m.sorted)])

/-- The slice of the tools is nil until the first is appended. -/
def toolsJson (ts : List Tool) : Json := if ts = [] then .null else .arr (ts.map Tool.json)

def initializeResult : Json :=
  .obj [("protocolVersion".toList, .str "2024-11-05".toList),
    ("capabilities".toList, .obj [("tools".toList, .obj [])]),
    ("serverInfo".toList,
      .obj [("name".toList, .str "mcp-api-gateway".toList), ("version".toList, .str "1.0.0".toList)])]

def RpcResult.json : RpcResult → Json
  | .initialized => initializeResult.sorted
  | .tools ts => .obj [("tools".toList, toolsJson ts)]
  | .content text =>
    .obj [("content".toList,
      .arr [.obj [("type".toList, .str "text".toList), ("text".toList, .str text)]])]

def JSONRPCError.json (e : JSONRPCError) : Json :=
  .obj [("code".toList, .num (intLit e.code)), ("message".toList, .str e.message)]

/-- A result or an error that is nil is left out. -/
def JSONRPCResponse.json (r : JSONRPCResponse) : Json :=
  .obj ([("jsonrpc".toList, .str "2.0".toList)] ++
    (r.result.map fun x => ("result".toList, x.json)).toList ++
    (r.error.map fun e => ("error".toList, e.json)).toList ++ [("id".toList, r.id.sorted)])

/-- The text is an object with an array of tools, each with a name and an object for a schema. -/
def WellFormedListing (text : Str) : Prop :=
  ∃ ms items, JsonText.parse text = some (.obj ms) ∧ lookup "tools".toList ms = some (.arr items) ∧
    ∀ x ∈ items, ∃ fields name schema, x = .obj fields ∧
      lookup "name".toList fields = some (.str name) ∧
      lookup "inputSchema".toList fields = some (.obj schema)

/-- The endpoint has an enabled connection, and its tool is in the scopes. -/
def Offered (scopes : List Str) (db : DB) (ep : APIEndpoint) : Prop :=
  ∃ conn, enabledConn db.getConnections ep = some conn ∧ matchScope (resolvedName conn ep) scopes = true

/-- Something is offered to the role. -/
def Offers (role : Str) (scopes : List Str) (db : DB) : Prop :=
  (∃ ep ∈ db.getAllEndpoints, Offered scopes db ep) ∨
    (role = "admin".toList ∧ ∃ t : AdminTool, matchScope t.name scopes = true)

theorem json_eq (t : Tool) : ∃ ms, t.json = .obj ms ∧
    lookup "name".toList ms = some (.str t.name) ∧
    lookup "inputSchema".toList ms = some t.inputSchema.sorted := by
  refine ⟨_, rfl, ?_⟩
  cases t.meta with
  | none => exact ⟨by simp [lookup], by simp [lookup]⟩
  | some m => exact ⟨by simp [lookup], by simp [lookup]⟩

/-- A tool is encoded with an object for its schema, unless the schema is a nil map. -/
theorem json_wellFormed (t : Tool) :
    (∃ fields name schema, t.json = .obj fields ∧ lookup "name".toList fields = some (.str name) ∧
      lookup "inputSchema".toList fields = some (.obj schema)) ↔
        ∃ schema, t.inputSchema.sorted = .obj schema := by
  obtain ⟨ms, hms, hname, hschema⟩ := json_eq t
  constructor
  · rintro ⟨fields, _, schema, hfields, _, hs⟩
    rw [hms] at hfields
    cases hfields
    rw [hschema] at hs
    exact ⟨schema, Option.some.inj hs⟩
  · rintro ⟨schema, hs⟩
    exact ⟨ms, t.name, schema, hms, hname, hschema.trans (congrArg some hs)⟩

theorem wellFormed_tools (ts : List Tool) : WellFormedListing (RpcResult.tools ts).json.compact ↔
    ts ≠ [] ∧ ∀ t ∈ ts, ∃ schema, t.inputSchema.sorted = .obj schema := by
  have hparse : JsonText.parse (RpcResult.tools ts).json.compact =
      some (.obj [("tools".toList, toolsJson ts)]) := JsonText.parse_compact _
  have hmember : lookup "tools".toList [("tools".toList, toolsJson ts)] = some (toolsJson ts) := by
    simp [lookup]
  unfold WellFormedListing
  rw [hparse]
  constructor
  · rintro ⟨ms, items, hms, hitems, hall⟩
    cases hms
    rw [hmember] at hitems
    by_cases hts : ts = []
    · rw [toolsJson, if_pos hts] at hitems
      cases hitems
    · rw [toolsJson, if_neg hts] at hitems
      cases hitems
      refine ⟨hts, ?_⟩
      intro t ht
      exact (json_wellFormed t).mp (hall t.json (List.mem_map_of_mem ht))
  · rintro ⟨hts, hall⟩
    refine ⟨_, ts.map Tool.json, rfl, ?_, ?_⟩
    · rw [hmember, toolsJson, if_neg hts]
    · intro x hx
      obtain ⟨t, ht, rfl⟩ := List.mem_map.mp hx
      exact (json_wellFormed t).mpr (hall t ht)

theorem schemaMap_eq_null {schema : Str} :
    schemaMap schema = .null ↔ JsonText.parse schema = some .null := by
  unfold schemaMap
  split
  · next hnil =>
    rw [hnil]
    decide
  · cases hp : JsonText.parse schema with
    | none => simp [emptySchema]
    | some v =>
      simp only [Option.bind_some, Option.some.injEq]
      cases v with
      | null => simp [Json.toAny]
      | bool b => simp [Json.toAny, emptySchema]
      | str s => simp [Json.toAny, emptySchema]
      | num n => cases n.float64 <;> simp [Json.toAny, emptySchema, *]
      | arr xs => cases hx : Json.toAnyItems xs <;> simp [Json.toAny, emptySchema, hx]
      | obj ms => cases hm : Json.toAnyMembers ms <;> simp [Json.toAny, emptySchema, hm]

theorem schemaMap_cases (schema : Str) :
    schemaMap schema = .null ∨ ∃ ms, schemaMap schema = .obj ms := by
  unfold schemaMap
  split
  · exact Or.inr ⟨_, rfl⟩
  · split
    · exact Or.inr ⟨_, rfl⟩
    · exact Or.inl rfl
    · exact Or.inr ⟨_, rfl⟩

theorem sorted_schemaMap (schema : Str) :
    (∃ ms, (schemaMap schema).sorted = .obj ms) ↔ JsonText.parse schema ≠ some .null := by
  rw [ne_eq, ← schemaMap_eq_null]
  rcases schemaMap_cases schema with hnull | ⟨ms, hobj⟩
  · simp [hnull, Json.sorted]
  · simp [hobj, Json.sorted]

theorem mem_listTools {faults : ReadFaults} {role : Str} {scopes : List Str} {db : DB} {ts : List Tool}
    (h : listTools faults role scopes db = .ok ts) {t : Tool} :
    t ∈ ts ↔
      (∃ ep ∈ db.getAllEndpoints, ∃ conn, enabledConn db.getConnections ep = some conn ∧
        matchScope (resolvedName conn ep) scopes = true ∧ t = endpointTool ep conn) ∨
      (role = "admin".toList ∧ ∃ a : AdminTool, matchScope a.name scopes = true ∧ t = a.tool) := by
  unfold listTools at h
  cases hes : listEntries faults role scopes db with
  | error cause =>
    rw [hes] at h
    cases h
  | ok es =>
    rw [hes] at h
    cases h
    rw [List.mem_map]
    constructor
    · rintro ⟨e, he, rfl⟩
      obtain ⟨hscope, ⟨a, hrole, rfl⟩ | ⟨ep, conn, hep, hconn, rfl⟩⟩ := mem_listEntries hes he
      · have hname : a.tool.name = a.name := by cases a <;> rfl
        exact Or.inr ⟨hrole, a, hname ▸ hscope, rfl⟩
      · exact Or.inl ⟨ep, hep, conn, hconn, hscope, rfl⟩
    · have hall : es = endpointEntries db.getAllEndpoints db.getConnections scopes ++
          adminEntries role scopes := by
        unfold listEntries at hes
        split at hes
        · cases hes
        · cases hes
        · exact (Except.ok.inj hes).symm
      rw [hall]
      rintro (⟨ep, hep, conn, hconn, hscope, rfl⟩ | ⟨hrole, a, hscope, rfl⟩)
      · exact ⟨_, List.mem_append_left _ (mem_endpointEntries hep hconn hscope), rfl⟩
      · exact ⟨_, List.mem_append_right _ (mem_adminEntries hrole hscope), rfl⟩

theorem listTools_ne_nil {faults : ReadFaults} {role : Str} {scopes : List Str} {db : DB}
    {ts : List Tool} (h : listTools faults role scopes db = .ok ts) :
    ts ≠ [] ↔ Offers role scopes db := by
  constructor
  · intro hne
    obtain ⟨t, ht⟩ := List.exists_mem_of_ne_nil ts hne
    rcases (mem_listTools h).mp ht with ⟨ep, hep, conn, hconn, hscope, _⟩ | ⟨hrole, a, hscope, _⟩
    · exact Or.inl ⟨ep, hep, conn, hconn, hscope⟩
    · exact Or.inr ⟨hrole, a, hscope⟩
  · rintro (⟨ep, hep, conn, hconn, hscope⟩ | ⟨hrole, a, hscope⟩)
    · exact List.ne_nil_of_mem ((mem_listTools h).mpr (Or.inl ⟨ep, hep, conn, hconn, hscope, rfl⟩))
    · exact List.ne_nil_of_mem ((mem_listTools h).mpr (Or.inr ⟨hrole, a, hscope, rfl⟩))

/-- A listing that succeeds is well formed exactly when something is offered to the role and no
offered endpoint has a schema that reads as `null`. -/
theorem listing_wellFormed_iff {faults : ReadFaults} {role : Str} {scopes : List Str} {db : DB}
    {ts : List Tool} (h : listTools faults role scopes db = .ok ts) :
    WellFormedListing (RpcResult.tools ts).json.compact ↔
      Offers role scopes db ∧ ∀ ep ∈ db.getAllEndpoints, Offered scopes db ep →
        JsonText.parse ep.parametersSchema ≠ some .null := by
  rw [wellFormed_tools, listTools_ne_nil h]
  apply and_congr_right
  intro _
  constructor
  · rintro hall ep hep ⟨conn, hconn, hscope⟩
    exact (sorted_schemaMap _).mp
      (hall _ ((mem_listTools h).mpr (Or.inl ⟨ep, hep, conn, hconn, hscope, rfl⟩)))
  · intro hall t ht
    rcases (mem_listTools h).mp ht with ⟨ep, hep, conn, hconn, hscope, rfl⟩ | ⟨_, a, _, rfl⟩
    · exact (sorted_schemaMap _).mpr (hall ep hep ⟨conn, hconn, hscope⟩)
    · cases a <;> exact ⟨_, rfl⟩

def plainConnection : APIConnection :=
  ⟨['c'], ['n'], [], "http://h".toList, "none".toList, [], true, []⟩

/-- A schema that ends in its middle. -/
def brokenEndpoint : APIEndpoint :=
  ⟨['e'], ['c'], ['t'], [], ['/'], "GET".toList, "\x7b\"type\":".toList, [], [], 1⟩

def brokenDB : DB :=
  { DB.empty false with
    connections := ⟨[plainConnection], by decide, by decide⟩
    endpoints := ⟨[brokenEndpoint], by decide, by decide⟩ }

theorem listing_wellFormed_broken :
    WellFormedListing (RpcResult.tools [endpointTool brokenEndpoint plainConnection]).json.compact := by
  have hlist : listTools noFaults "user".toList [['*']] brokenDB =
      .ok [endpointTool brokenEndpoint plainConnection] := rfl
  have hoffered : Offered [['*']] brokenDB brokenEndpoint := ⟨plainConnection, rfl, rfl⟩
  refine (listing_wellFormed_iff hlist).mpr ⟨Or.inl ⟨brokenEndpoint, List.mem_singleton_self _, hoffered⟩, ?_⟩
  intro ep hep _
  rw [List.mem_singleton.mp hep]
  decide

def nullEndpoint : APIEndpoint :=
  ⟨['e'], ['c'], ['t'], [], ['/'], "GET".toList, "null".toList, [], [], 1⟩

def nullDB : DB :=
  { DB.empty false with
    connections := ⟨[plainConnection], by decide, by decide⟩
    endpoints := ⟨[nullEndpoint], by decide, by decide⟩ }

/-- Without a tool the answer is `{"tools":null}`, and a stored schema `null` stays one. -/
theorem listings_not_wellFormed :
    (listTools noFaults "user".toList [['*']] (.empty false) = .ok [] ∧
      ¬ WellFormedListing (RpcResult.tools []).json.compact) ∧
    listTools noFaults "user".toList [['*']] nullDB =
        .ok [endpointTool nullEndpoint plainConnection] ∧
      ¬ WellFormedListing (RpcResult.tools [endpointTool nullEndpoint plainConnection]).json.compact := by
  refine ⟨⟨rfl, ?_⟩, rfl, ?_⟩
  · intro h
    exact ((wellFormed_tools []).mp h).1 rfl
  · intro h
    have hobj := ((wellFormed_tools _).mp h).2 _ List.mem_cons_self
    exact (sorted_schemaMap "null".toList).mp hobj (by decide)

end Janus.Server
