import Janus.CliModify
import Janus.PortalSessions

/-!
# Modify commands over HTTP

The commands of `mcp-cli` fetch a listing from the portal and post the edited record, as JSON,
with a session. Requests and answers may get lost. Whatever becomes of them, what the commands do to
the portal's database is a run of the modify commands on a database without caches
(`modify_refines`). A command that nothing comes between completes exactly when it is answered while
its session lives and its record fits (`modify_completes`).
-/

namespace Janus.CliWire

set_option autoImplicit false

open PortalServer Storage
open CliModify (Kind Endpoint RecordID Phase search noCaches)

def pathOf : Kind → Str
  | .connection => "/api/connections".toList
  | .endpoint => "/api/endpoints".toList

def routeOf : Kind → Route
  | .connection => .connections
  | .endpoint => .endpoints

def target (k : Kind) : Url.URL := (Url.received (pathOf k)).getD Url.empty

theorem escapedPath_target (k : Kind) : (target k).escapedPath = pathOf k := by
  cases k <;> decide +kernel

theorem path_target (k : Kind) : Text.ofBytes (target k).path = pathOf k := by
  cases k <;> decide +kernel

theorem query_target (k : Kind) : Url.valuesOf (target k).rawQuery "connection_id".toList = [] := by
  cases k <;> decide +kernel

attribute [irreducible] target

/-- The header `Authorization` of a command. -/
def bearer (token : Str) : Str := if token = [] then [] else "Bearer ".toList ++ token

/-- What `makeRequest` sends to the path of a kind of records. -/
def makeRequest (k : Kind) (method : String) (token body : Str) : Request where
  method := method.toList
  url := target k
  host := []
  tls := true
  authorization := bearer token
  stateCookie := none
  body := some body

/-- The longest body that the server reads. -/
def maxBody : Nat := 2 ^ 20

/-- The body of a command is one value, which is not read to its end when it is too long. -/
def limitBody (r : Request) (max : Nat) : Request :=
  { r with body := r.body.filter fun text => (Text.bytes text).length ≤ max }

/-- A request of a command, with whatever is left of its body. -/
structure FromCommand (k : Kind) (method : String) (token : Str) (r : Request) : Prop where
  method : r.method = method.toList
  url : r.url = target k
  authorization : r.authorization = bearer token

theorem fromCommand (k : Kind) (method : String) (token body : Str) (max : Nat) :
    FromCommand k method token (limitBody (makeRequest k method token body) max) := ⟨rfl, rfl, rfl⟩

theorem body_limitBody {k : Kind} {method : String} {token body : Str} {max : Nat}
    (h : (Text.bytes body).length ≤ max) :
    (limitBody (makeRequest k method token body) max).body = some body := by
  simp only [limitBody, makeRequest, Option.filter_some, decide_eq_true h, if_true]

theorem body_limitBody_long {k : Kind} {method : String} {token body : Str} {max : Nat}
    (h : max < (Text.bytes body).length) :
    (limitBody (makeRequest k method token body) max).body = none := by
  simp only [limitBody, makeRequest, Option.filter_some, decide_eq_false (Nat.not_le.mpr h),
    Bool.false_eq_true, if_false]

theorem FromCommand.route {k : Kind} {method : String} {token : Str} {r : Request}
    (h : FromCommand k method token r) (demo : Bool) : route demo r = some (routeOf k) := by
  have hclean : cleanPath (pathOf k) = pathOf k := by cases k <;> decide +kernel
  have hmatch : matchRoute demo ((Url.pathSegments (pathOf k)).map readSegment) = routeOf k := by
    cases k <;> cases demo <;> decide +kernel
  unfold PortalServer.route
  rw [h.url, escapedPath_target]
  dsimp only
  rw [if_neg (not_not.mpr hclean), hmatch]

/-- The record of an endpoint as the command writes it. -/
def endpointJson (e : Endpoint) : Json := .obj
  [("id".toList, .str e.id), ("connection_id".toList, .str e.connectionID),
    ("tool_name".toList, .str e.toolName), ("tool_description".toList, .str e.toolDescription),
    ("path".toList, .str e.path), ("method".toList, .str e.method),
    ("parameters_schema".toList, .str e.parametersSchema), ("template".toList, .str e.template)]

def assignEndpoint (e : Endpoint) (k : Str) (v : Json) : Option Endpoint :=
  if Text.equalFold k "id".toList then (Decode.str e.id v).map fun x => { e with id := x }
  else if Text.equalFold k "connection_id".toList then
    (Decode.str e.connectionID v).map fun x => { e with connectionID := x }
  else if Text.equalFold k "tool_name".toList then
    (Decode.str e.toolName v).map fun x => { e with toolName := x }
  else if Text.equalFold k "tool_description".toList then
    (Decode.str e.toolDescription v).map fun x => { e with toolDescription := x }
  else if Text.equalFold k "path".toList then (Decode.str e.path v).map fun x => { e with path := x }
  else if Text.equalFold k "method".toList then
    (Decode.str e.method v).map fun x => { e with method := x }
  else if Text.equalFold k "parameters_schema".toList then
    (Decode.str e.parametersSchema v).map fun x => { e with parametersSchema := x }
  else if Text.equalFold k "template".toList then
    (Decode.str e.template v).map fun x => { e with template := x }
  else some e

def encode : (k : Kind) → k.resource.Record → Json
  | .connection => APIConnection.json
  | .endpoint => endpointJson

def decode : (k : Kind) → Json → Option k.resource.Record
  | .connection => decodeConnection
  | .endpoint => Decode.record assignEndpoint ⟨[], [], [], [], [], [], [], []⟩

/-- The row of a record in the listing of the portal. -/
def rowJson : (k : Kind) → k.resource.Row → Json
  | .connection => APIConnection.json
  | .endpoint => APIEndpoint.json

theorem decode_rowJson (k : Kind) (row : k.resource.Row) :
    decode k (rowJson k row) = some (k.resource.ofRow row) := by
  cases k <;> rfl

theorem decodeEndpoint_endpointJson (e : Endpoint) : decodeEndpoint (endpointJson e) = some e.row := rfl

theorem decodeBody_compact {α : Type} (decode : Json → Option α) (v : Json) (r : PortalServer.Request)
    (h : r.body = some v.compact) : decodeBody decode r = decode v := by
  have hparse := JsonText.parse_compact v
  unfold JsonText.parse at hparse
  unfold decodeBody
  rw [h, Option.bind_some]
  split at hparse
  · rename_i heq
    rw [heq]
    split at hparse
    · cases hparse
      rfl
    · cases hparse
  · cases hparse

section Served

variable (p : Portal) (env : Env) (k : Kind) (token : Str) (s : State)

/-- The portal takes the session for one of an administrator. -/
def authorized : Bool := (p.authManager.authorizeAdmin p.sessions env.now (bearer token)).isOk

def readFault : Kind → Env → Option Str
  | .connection => Env.connectionReads
  | .endpoint => Env.endpointReads

variable {k token} {method : String} {r : Request}

theorem serve_unauthorized (hr : FromCommand k method token r) (h : authorized p env token = false) :
    ∃ d, serve p env r s = (s, deniedResponse d, none) := by
  have hadmin : (routeOf k).admin = true := by cases k <;> rfl
  unfold authorized at h
  rw [← hr.authorization] at h
  cases hauth : p.authManager.authorizeAdmin p.sessions env.now r.authorization with
  | error d => exact ⟨d, serve_denied ⟨_, hr.route p.demo, hadmin⟩ hauth⟩
  | ok claims =>
    rw [hauth] at h
    cases h

theorem serve_fromCommand (hr : FromCommand k method token r) (h : authorized p env token = true) :
    serve p env r s =
      ((handleAdmin p env r s (routeOf k)).1, (handleAdmin p env r s (routeOf k)).2, none) := by
  have hadmin : (routeOf k).admin = true := by cases k <;> rfl
  unfold authorized at h
  rw [← hr.authorization] at h
  cases hauth : p.authManager.authorizeAdmin p.sessions env.now r.authorization with
  | error d =>
    rw [hauth] at h
    cases h
  | ok claims => exact serve_authorized (hr.route p.demo) hadmin hauth

theorem handle_get (hr : FromCommand k "GET" token r) : handleAdmin p env r s (routeOf k) =
    (s, (readFault k env).elim (encoded (listJson (rowJson k) (k.resource.rows s.stores.db)))
      fun _ => internalError) := by
  cases k with
  | connection =>
    have hpath : r.path = "/api/connections".toList := by
      unfold Request.path
      rw [hr.url]
      exact path_target .connection
    have hcond : (r.method = "GET".toList &&
        (decide (r.path = "/api/connections".toList) ||
          decide (r.path = "/api/connections/".toList))) = true := by
      rw [hpath, hr.method]
      rfl
    dsimp only [routeOf, handleAdmin, readFault]
    unfold handleConnections
    rw [if_pos hcond]
    cases env.connectionReads <;> rfl
  | endpoint =>
    have hquery : r.query "connection_id" = [] := by
      have hvalues : Url.valuesOf r.url.rawQuery "connection_id".toList = [] := by
        rw [hr.url]
        exact query_target .endpoint
      unfold Request.query
      rw [hvalues]
      rfl
    dsimp only [routeOf, handleAdmin, readFault]
    unfold handleEndpoints
    rw [if_pos hr.method]
    simp only [hquery]
    cases env.endpointReads <;> rfl

theorem FromCommand.not_get (hr : FromCommand k "POST" token r) : ¬ r.method = "GET".toList := by
  rw [hr.method]
  decide

theorem FromCommand.no_listing (hr : FromCommand k "POST" token r) :
    ¬ (decide (r.method = "GET".toList) &&
      (decide (r.path = "/api/connections".toList) ||
        decide (r.path = "/api/connections/".toList))) = true := by
  rw [decide_eq_false hr.not_get, Bool.false_and]
  exact Bool.false_ne_true

theorem handle_post (hr : FromCommand k "POST" token r) (rec : k.resource.Record)
    (hbody : r.body = some (encode k rec).compact) :
    ∃ v, (decode k v).isSome ∧ handleAdmin p env r s (routeOf k) =
      committed s (k.resource.post env.faults.db env.newID rec s.stores.db) (encoded v) := by
  cases k with
  | connection =>
    refine ⟨APIConnection.json (if rec.id = [] then { rec with id := env.newID } else rec), ?_, ?_⟩
    · exact congrArg Option.isSome (decodeConnection_json _)
    · have hconn : decodeBody decodeConnection r = some rec :=
        (decodeBody_compact decodeConnection _ r hbody).trans (decodeConnection_json rec)
      dsimp only [routeOf, handleAdmin]
      unfold handleConnections
      rw [if_neg hr.no_listing, if_pos hr.method, hconn]
      rfl
  | endpoint =>
    have hrow : (if rec.row.id = [] then { rec.row with id := env.newID } else rec.row) =
        if rec.id = [] then { rec with id := env.newID }.row else rec.row := rfl
    refine ⟨APIEndpoint.json (DB.pinned s.stores.db
      (if rec.id = [] then { rec with id := env.newID }.row else rec.row)), ?_, ?_⟩
    · exact congrArg Option.isSome (decode_rowJson .endpoint _)
    · have hep : decodeBody decodeEndpoint r = some rec.row :=
        (decodeBody_compact decodeEndpoint _ r hbody).trans (decodeEndpoint_endpointJson rec)
      dsimp only [routeOf, handleAdmin]
      unfold handleEndpoints
      rw [if_neg hr.not_get, if_pos hr.method, hep]
      dsimp only
      rw [hrow]
      rfl

/-- A body that is too long is refused as a whole. -/
theorem handle_post_unread (hr : FromCommand k "POST" token r) (hbody : r.body = none) :
    handleAdmin p env r s (routeOf k) = (s, invalidPayload) := by
  have hnone {α : Type} (decode : Json → Option α) : decodeBody decode r = none := by
    unfold decodeBody
    rw [hbody]
    rfl
  cases k with
  | connection =>
    dsimp only [routeOf, handleAdmin]
    unfold handleConnections
    rw [if_neg hr.no_listing, if_pos hr.method, hnone]
  | endpoint =>
    dsimp only [routeOf, handleAdmin]
    unfold handleEndpoints
    rw [if_neg hr.not_get, if_pos hr.method, hnone]

end Served

def succeeded (resp : Response) : Bool := 200 ≤ resp.status && resp.status < 300

/-- The value of a body that is read as JSON. -/
def bodyValue (resp : Response) : Option Json :=
  match resp.body with
  | .json v => JsonText.parse v.compact
  | .empty | .error _ | .text _ | .importResult _ | .static => none

def decodeList (k : Kind) : Json → Option (List k.resource.Record)
  | .null => some []
  | .arr vs => vs.mapM (decode k)
  | .bool _ | .num _ | .str _ | .obj _ => none

def readListing (k : Kind) (resp : Response) : Option (List k.resource.Record) :=
  if succeeded resp then (bodyValue resp).bind (decodeList k) else none

def saved (k : Kind) (resp : Response) : Bool :=
  succeeded resp && ((bodyValue resp).bind (decode k)).isSome

/-- What becomes of a request. -/
inductive Fate where
  /-- It does not get to the portal: nobody takes it, or the rate limiter refuses it. -/
  | lost
  /-- The portal serves it, but the command does not get the whole answer, or has given up before. -/
  | unanswered
  | answered
  deriving DecidableEq

/-- What the server makes of a request, and answers it with. -/
def exchange (p : Portal) (env : Env) (fate : Fate) (r : Request) (s : State) : State × Option Response :=
  if fate = .lost then (s, none)
  else
    let served := serve p env (limitBody r maxBody) s
    (served.1, some served.2.1)

/-- The portal, and the commands with one record as their target. A command that has given up while its
record is on its way is loaded until that is served or lost. -/
structure Net (k : Kind) (id : RecordID) where
  state : State
  commands : Nat → Phase k.resource id

/-- A command sends its next request, and takes the answer if it gets one. -/
inductive Move where
  | get (c : Nat) (env : Env) (fate : Fate)
  | post (c : Nat) (env : Env) (fate : Fate)

/-- The table has taken the record of a command, which hears of it or not. -/
structure Taken where
  command : Nat
  heard : Bool
  deriving DecidableEq

section Commands

variable {k : Kind} {id : RecordID} (p : Portal) (flags : Nat → k.resource.Flag → Option Str)
  (token : Nat → Str)

def Net.setCommand (n : Net k id) (s : State) (c : Nat) (phase : Phase k.resource id) : Net k id :=
  ⟨s, fun i => if i = c then phase else n.commands i⟩

def listed : Option (List k.resource.Record) → Phase k.resource id
  | none => .failed
  | some records => search id records

def Net.act (n : Net k id) : Move → Net k id × List Taken
  | .get c env fate =>
    match n.commands c with
    | .waiting =>
      let served := exchange p env fate (makeRequest k "GET" (token c) []) n.state
      let records := if fate = .answered then served.2.bind (readListing k) else none
      (n.setCommand served.1 c (listed records), [])
    | _ => (n, [])
  | .post c env fate =>
    match n.commands c with
    | .loaded target _ =>
      let served := exchange p env fate (makeRequest k "POST" (token c)
        (encode k (k.resource.fields.edit (flags c) target)).compact) n.state
      if served.2.any (saved k) then
        (n.setCommand served.1 c (if fate = .answered then .saved else .failed), [⟨c, fate = .answered⟩])
      else (n.setCommand served.1 c .failed, [])
    | _ => (n, [])

end Commands

/-- The commands on the database of the portal, without caches. What the table has taken is saved,
whether the command has heard of it or not. -/
def Net.abstract {k : Kind} {id : RecordID} (taken : List Taken) (n : Net k id) :
    CliModify.System k.resource id :=
  ⟨n.state.stores.db, noCaches, fun c => if ⟨c, false⟩ ∈ taken then .saved else n.commands c⟩

section Simulation

variable {k : Kind} {id : RecordID} {p : Portal} {env : Env} {token : Str} {s : State}

theorem mapM_decode (rows : List k.resource.Row) :
    (rows.map (rowJson k)).mapM (decode k) = some (rows.map k.resource.ofRow) := by
  induction rows with
  | nil => rfl
  | cons row rows ih =>
    rw [List.map_cons, List.mapM_cons, decode_rowJson, List.map_cons, ih]
    rfl

theorem readListing_listJson (rows : List k.resource.Row) :
    readListing k (encoded (listJson (rowJson k) rows)) = some (rows.map k.resource.ofRow) := by
  have hok : succeeded (encoded (listJson (rowJson k) rows)) = true := rfl
  have hvalue : bodyValue (encoded (listJson (rowJson k) rows)) = some (listJson (rowJson k) rows) :=
    JsonText.parse_compact _
  unfold readListing
  rw [if_pos hok, hvalue, Option.bind_some]
  unfold listJson
  split
  · rename_i hnil
    rw [hnil]
    rfl
  · exact mapM_decode rows

theorem readListing_failed {resp : Response} (h : succeeded resp = false) : readListing k resp = none := by
  unfold readListing
  rw [if_neg (Bool.eq_false_iff.mp h)]

theorem succeeded_denied (d : Auth.Denied) : succeeded (deniedResponse d) = false := by
  cases d <;> rfl

theorem saved_failed {resp : Response} (h : succeeded resp = false) : saved k resp = false := by
  unfold saved
  rw [h]
  rfl

/-- Why a listing fails, if it does. -/
def getFault (p : Portal) (k : Kind) (token : Str) (env : Env) (fate : Fate) : Option Str :=
  if fate = .answered ∧ authorized p env token = true then readFault k env else some []

/-- A record as JSON is longer than a body may be. -/
def tooLong (k : Kind) (rec : k.resource.Record) : Bool :=
  maxBody < (Text.bytes (encode k rec).compact).length

/-- The record of a command does not get to the table, or that fails. -/
def postFails (p : Portal) (k : Kind) (token : Str) (env : Env) (fate : Fate)
    (rec : k.resource.Record) : Bool :=
  fate = .lost || !authorized p env token || tooLong k rec || env.faults.db

/-- A listing is the table, or the command fails; nothing changes. -/
theorem exchange_get (p : Portal) (env : Env) (fate : Fate) (token : Str) (s : State) :
    (exchange p env fate (makeRequest k "GET" token []) s).1 = s ∧
      (if fate = .answered then
        (exchange p env fate (makeRequest k "GET" token []) s).2.bind (readListing k) else none) =
        (getFault p k token env fate).elim (some ((k.resource.rows s.stores.db).map k.resource.ofRow))
          fun _ => none := by
  have hserve : (serve p env (limitBody (makeRequest k "GET" token []) maxBody) s).1 = s ∧
      readListing k (serve p env (limitBody (makeRequest k "GET" token []) maxBody) s).2.1 =
        (getFault p k token env .answered).elim (some ((k.resource.rows s.stores.db).map k.resource.ofRow))
          fun _ => none := by
    have hr := fromCommand k "GET" token [] maxBody
    unfold getFault
    cases hauth : authorized p env token with
    | false =>
      obtain ⟨d, h⟩ := serve_unauthorized p env s hr hauth
      rw [h]
      exact ⟨rfl, readListing_failed (succeeded_denied d)⟩
    | true =>
      rw [serve_fromCommand p env s hr hauth, handle_get p env s hr, if_pos ⟨rfl, rfl⟩]
      refine ⟨rfl, ?_⟩
      cases readFault k env with
      | none => exact readListing_listJson _
      | some _ => exact readListing_failed rfl
  cases fate with
  | lost => exact ⟨rfl, rfl⟩
  | unanswered => exact ⟨hserve.1, rfl⟩
  | answered => exact hserve

theorem post_fails (newID : Str) (rec : k.resource.Record) (db : DB) :
    ∃ e, k.resource.post true newID rec db = .error e := by
  cases k with
  | connection => exact ⟨_, rfl⟩
  | endpoint => exact ⟨_, rfl⟩

/-- The table takes a record as the commands have it, or nothing changes. -/
theorem exchange_post (p : Portal) (env : Env) (fate : Fate) (token : Str) (s : State)
    (rec : k.resource.Record) :
    ((∃ e, k.resource.post (postFails p k token env fate rec) env.newID rec s.stores.db = .error e) ∧
      (exchange p env fate (makeRequest k "POST" token (encode k rec).compact) s).2.any (saved k) = false ∧
      (exchange p env fate (makeRequest k "POST" token (encode k rec).compact) s).1 = s) ∨
    ((exchange p env fate (makeRequest k "POST" token (encode k rec).compact) s).2.any (saved k) = true ∧
      k.resource.post (postFails p k token env fate rec) env.newID rec s.stores.db =
        .ok (exchange p env fate (makeRequest k "POST" token (encode k rec).compact) s).1.stores.db) := by
  have hr := fromCommand k "POST" token (encode k rec).compact maxBody
  unfold exchange postFails
  by_cases hlost : fate = .lost
  · rw [if_pos hlost, decide_eq_true hlost]
    exact .inl ⟨post_fails env.newID rec s.stores.db, rfl, rfl⟩
  rw [if_neg hlost, decide_eq_false hlost, Bool.false_or]
  dsimp only
  rw [Option.any_some]
  cases hauth : authorized p env token with
  | false =>
    obtain ⟨d, h⟩ := serve_unauthorized p env s hr hauth
    rw [h]
    exact .inl ⟨post_fails env.newID rec s.stores.db, saved_failed (succeeded_denied d), rfl⟩
  | true =>
    rw [serve_fromCommand p env s hr hauth, Bool.not_true, Bool.false_or]
    cases hlong : tooLong k rec with
    | true =>
      rw [handle_post_unread p env s hr (body_limitBody_long (of_decide_eq_true hlong))]
      exact .inl ⟨post_fails env.newID rec s.stores.db, saved_failed rfl, rfl⟩
    | false =>
      have hfits : (Text.bytes (encode k rec).compact).length ≤ maxBody :=
        Nat.not_lt.mp (of_decide_eq_false hlong)
      obtain ⟨v, hdecoded, hpost⟩ := handle_post p env s hr rec (body_limitBody hfits)
      rw [hpost, Bool.false_or]
      cases hresult : k.resource.post env.faults.db env.newID rec s.stores.db with
      | error e => exact .inl ⟨⟨e, rfl⟩, saved_failed rfl, rfl⟩
      | ok db =>
        refine .inr ⟨?_, rfl⟩
        have hvalue : bodyValue (encoded v) = some v := JsonText.parse_compact v
        show saved k (encoded v) = true
        unfold saved
        rw [hvalue, Option.bind_some, hdecoded]
        rfl

/-- What a step of the commands is without HTTP. -/
def withoutHTTP (p : Portal) (flags : Nat → k.resource.Flag → Option Str) (tokens : Nat → Str)
    (n : Net k id) : Move → CliModify.Action
  | .get c env fate => .get c 0 0 0 (getFault p k (tokens c) env fate)
  | .post c env fate =>
    match n.commands c with
    | .loaded target _ =>
      .post c 0 (postFails p k (tokens c) env fate (k.resource.fields.edit (flags c) target)) env.newID
    | _ => .post c 0 true env.newID

variable {flags : Nat → k.resource.Flag → Option Str} {tokens : Nat → Str}

theorem setCaches_same (a : CliModify.System k.resource id) (i : Nat) : a.setCaches i (a.caches i) = a := by
  obtain ⟨db, caches, commands⟩ := a
  refine congrArg (CliModify.System.mk db · commands) ?_
  funext j
  split
  · rename_i hj
    rw [hj]
  · rfl

theorem fetch_noCaches {a : CliModify.System k.resource id} (hcaches : a.caches = noCaches)
    (fault : Option Str) :
    a.fetch 0 0 0 fault =
      (fault.elim (.ok ((k.resource.rows a.db).map k.resource.ofRow)) .error, a) := by
  obtain ⟨db, caches, commands⟩ := a
  cases hcaches
  have hsame := setCaches_same (⟨db, noCaches, commands⟩ : CliModify.System k.resource id) 0
  cases k <;> cases fault <;> exact congrArg (Prod.mk _) hsame

theorem step_get {a : CliModify.System k.resource id} (hcaches : a.caches = noCaches) {c : Nat}
    (hc : a.commands c = .waiting) (fault : Option Str) :
    CliModify.step flags a (.get c 0 0 0 fault) =
      (a.setCommand c (listed (fault.elim (some ((k.resource.rows a.db).map k.resource.ofRow))
        fun _ => none)), []) := by
  simp only [CliModify.step, hc, fetch_noCaches hcaches]
  cases fault <;> rfl

theorem step_get_idle {a : CliModify.System k.resource id} {c : Nat} (hc : a.commands c ≠ .waiting)
    (replica now filled : Nat) (fault : Option Str) :
    CliModify.step flags a (.get c replica now filled fault) = (a, []) := by
  cases hphase : a.commands c with
  | waiting => exact absurd hphase hc
  | loaded target hid => simp only [CliModify.step, hphase]
  | saved => simp only [CliModify.step, hphase]
  | failed => simp only [CliModify.step, hphase]

theorem step_post {a : CliModify.System k.resource id} (hcaches : a.caches = noCaches) {c : Nat}
    {target : k.resource.Record} {hid : k.resource.id target = id.1} (hc : a.commands c = .loaded target hid)
    {fails : Bool} {newID : Str} {db : DB}
    (hpost : k.resource.post fails newID (k.resource.fields.edit (flags c) target) a.db = .ok db) :
    CliModify.step flags a (.post c 0 fails newID) = ({ a.setCommand c .saved with db := db }, [c]) := by
  have hpurged : Server.invalidateCaches (a.caches 0) = (a.setCommand c .saved).caches 0 := by
    rw [CliModify.System.setCommand, hcaches]
    rfl
  simp only [CliModify.step, hc, hpost]
  rw [hpurged, setCaches_same]

theorem step_post_error {a : CliModify.System k.resource id} {c : Nat} {target : k.resource.Record}
    {hid : k.resource.id target = id.1} (hc : a.commands c = .loaded target hid) {fails : Bool}
    {newID : Str} {e : StoreError}
    (hpost : k.resource.post fails newID (k.resource.fields.edit (flags c) target) a.db = .error e) :
    CliModify.step flags a (.post c 0 fails newID) = (a.setCommand c .failed, []) := by
  simp only [CliModify.step, hc, hpost]

theorem step_post_idle {a : CliModify.System k.resource id} {c : Nat}
    (hc : ∀ target hid, a.commands c ≠ .loaded target hid) (replica : Nat) (fails : Bool) (newID : Str) :
    CliModify.step flags a (.post c replica fails newID) = (a, []) := by
  cases hphase : a.commands c with
  | loaded target hid => exact absurd hphase (hc target hid)
  | waiting => simp only [CliModify.step, hphase]
  | saved => simp only [CliModify.step, hphase]
  | failed => simp only [CliModify.step, hphase]

theorem act_get (n : Net k id) {c : Nat} (hc : n.commands c = .waiting) (fate : Fate) :
    n.act p flags tokens (.get c env fate) =
      (n.setCommand n.state c (listed ((getFault p k (tokens c) env fate).elim
        (some ((k.resource.rows n.state.stores.db).map k.resource.ofRow)) fun _ => none)), []) := by
  obtain ⟨hstate, hrecords⟩ := exchange_get (k := k) p env fate (tokens c) n.state
  simp only [Net.act, hc]
  rw [hstate, hrecords]

theorem act_post (p : Portal) (flags : Nat → k.resource.Flag → Option Str) (tokens : Nat → Str)
    (n : Net k id) {c : Nat} {target : k.resource.Record} {hid : k.resource.id target = id.1}
    (hc : n.commands c = .loaded target hid) (env : Env) (fate : Fate) :
    ((∃ e, k.resource.post (postFails p k (tokens c) env fate (k.resource.fields.edit (flags c) target))
          env.newID (k.resource.fields.edit (flags c) target) n.state.stores.db = .error e) ∧
      n.act p flags tokens (.post c env fate) = (n.setCommand n.state c .failed, [])) ∨
    ∃ s, k.resource.post (postFails p k (tokens c) env fate (k.resource.fields.edit (flags c) target))
        env.newID (k.resource.fields.edit (flags c) target) n.state.stores.db = .ok s.stores.db ∧
      n.act p flags tokens (.post c env fate) =
        (n.setCommand s c (if fate = .answered then .saved else .failed), [⟨c, fate = .answered⟩]) := by
  simp only [Net.act, hc]
  rcases exchange_post (k := k) p env fate (tokens c) n.state (k.resource.fields.edit (flags c) target) with
    ⟨hpost, hsaved, hstate⟩ | ⟨hsaved, hpost⟩
  · refine .inl ⟨hpost, ?_⟩
    rw [hsaved, if_neg Bool.false_ne_true, hstate]
  · refine .inr ⟨_, hpost, ?_⟩
    rw [if_pos hsaved]

theorem act_get_idle (n : Net k id) {c : Nat} (hc : n.commands c ≠ .waiting) (fate : Fate) :
    n.act p flags tokens (.get c env fate) = (n, []) := by
  cases hphase : n.commands c with
  | waiting => exact absurd hphase hc
  | loaded target hid => simp only [Net.act, hphase]
  | saved => simp only [Net.act, hphase]
  | failed => simp only [Net.act, hphase]

theorem act_post_idle (n : Net k id) {c : Nat} (hc : ∀ target hid, n.commands c ≠ .loaded target hid)
    (fate : Fate) : n.act p flags tokens (.post c env fate) = (n, []) := by
  cases hphase : n.commands c with
  | loaded target hid => exact absurd hphase (hc target hid)
  | waiting => simp only [Net.act, hphase]
  | saved => simp only [Net.act, hphase]
  | failed => simp only [Net.act, hphase]

/-- A command that has not heard that the table took its record has failed. -/
def Unheard (taken : List Taken) (n : Net k id) : Prop :=
  ∀ c, ⟨c, false⟩ ∈ taken → n.commands c = .failed

theorem commands_setCommand (n : Net k id) (s : State) (c : Nat) (phase : Phase k.resource id) :
    (n.setCommand s c phase).commands c = phase := if_pos rfl

theorem commands_setCommand_of_ne (n : Net k id) (s : State) {c d : Nat} (h : d ≠ c)
    (phase : Phase k.resource id) : (n.setCommand s c phase).commands d = n.commands d := if_neg h

theorem Unheard.not_mem {taken : List Taken} {n : Net k id} (h : Unheard taken n) {c : Nat}
    (hc : n.commands c ≠ .failed) : ⟨c, false⟩ ∉ taken := fun hmem => hc (h c hmem)

theorem Unheard.set {taken : List Taken} {n : Net k id} (h : Unheard taken n) {c : Nat}
    (hc : n.commands c ≠ .failed) (s : State) (phase : Phase k.resource id) :
    Unheard taken (n.setCommand s c phase) := by
  intro d hd
  have hne : d ≠ c := by
    rintro rfl
    exact h.not_mem hc hd
  rw [commands_setCommand_of_ne n s hne]
  exact h d hd

theorem Unheard.act {taken : List Taken} {n : Net k id} (h : Unheard taken n) (m : Move) :
    Unheard (taken ++ (n.act p flags tokens m).2) (n.act p flags tokens m).1 := by
  cases m with
  | get c env fate =>
    by_cases hc : n.commands c = .waiting
    · rw [act_get n hc, List.append_nil]
      refine h.set ?_ _ _
      rw [hc]
      intro hphase
      cases hphase
    · rw [act_get_idle n hc, List.append_nil]
      exact h
  | post c env fate =>
    by_cases hc : ∃ target hid, n.commands c = .loaded target hid
    · obtain ⟨target, hid, hc⟩ := hc
      have hne : n.commands c ≠ .failed := by
        rw [hc]
        intro hphase
        cases hphase
      rcases act_post p flags tokens n hc env fate with
        ⟨_, hact⟩ | ⟨s, _, hact⟩
      · rw [hact, List.append_nil]
        exact h.set hne _ _
      · rw [hact]
        intro d hd
        rcases List.mem_append.mp hd with hd | hd
        · exact h.set hne _ _ d hd
        · obtain ⟨rfl, hfate⟩ := Taken.mk.inj (List.mem_singleton.mp hd)
          rw [commands_setCommand, if_neg (of_decide_eq_false hfate.symm)]
    · rw [act_post_idle n fun target hid hloaded => hc ⟨target, hid, hloaded⟩, List.append_nil]
      exact h

theorem abstract_set {taken : List Taken} (n : Net k id) {c : Nat} (hc : ⟨c, false⟩ ∉ taken)
    (phase : Phase k.resource id) :
    (n.abstract taken).setCommand c phase = (n.setCommand n.state c phase).abstract taken := by
  refine congrArg (CliModify.System.mk n.state.stores.db noCaches) ?_
  funext i
  by_cases hi : i = c
  · subst hi
    exact (if_pos rfl).trans ((if_neg hc).trans (if_pos rfl)).symm
  · simp only [if_neg hi, Net.abstract, Net.setCommand]

theorem abstract_taken {taken : List Taken} (n : Net k id) {c : Nat} (hc : ⟨c, false⟩ ∉ taken) (s : State)
    (fate : Fate) :
    { (n.abstract taken).setCommand c .saved with db := s.stores.db } =
      (n.setCommand s c (if fate = .answered then .saved else .failed)).abstract
        (taken ++ [⟨c, fate = .answered⟩]) := by
  refine congrArg (CliModify.System.mk s.stores.db noCaches) ?_
  funext i
  by_cases hi : i = c
  · subst hi
    by_cases hfate : fate = .answered <;> simp [CliModify.System.setCommand, Net.setCommand, hc, hfate]
  · simp [CliModify.System.setCommand, Net.abstract, Net.setCommand, hi]

theorem commands_abstract {taken : List Taken} {n : Net k id} (h : Unheard taken n) {c : Nat}
    (hc : n.commands c ≠ .failed) : (n.abstract taken).commands c = n.commands c :=
  if_neg (h.not_mem hc)

theorem commands_abstract_cases (taken : List Taken) (n : Net k id) (c : Nat) :
    (n.abstract taken).commands c = .saved ∨ (n.abstract taken).commands c = n.commands c := by
  by_cases h : ⟨c, false⟩ ∈ taken
  · exact .inl (if_pos h)
  · exact .inr (if_neg h)

/-- Each step over HTTP is a step of the commands on the database. -/
theorem act_simulated (p : Portal) (flags : Nat → k.resource.Flag → Option Str) (tokens : Nat → Str)
    {taken : List Taken} {n : Net k id} (h : Unheard taken n) (m : Move) :
    CliModify.step flags (n.abstract taken) (withoutHTTP p flags tokens n m) =
      ((n.act p flags tokens m).1.abstract (taken ++ (n.act p flags tokens m).2),
        (n.act p flags tokens m).2.map Taken.command) := by
  cases m with
  | get c env fate =>
    by_cases hc : n.commands c = .waiting
    · have hne : n.commands c ≠ .failed := by simp [hc]
      rw [act_get n hc, List.append_nil]
      refine (step_get (a := n.abstract taken) rfl ((commands_abstract h hne).trans hc) _).trans ?_
      rw [abstract_set n (h.not_mem hne)]
      rfl
    · rw [act_get_idle n hc, List.append_nil]
      refine step_get_idle ?_ _ _ _ _
      rcases commands_abstract_cases taken n c with hphase | hphase
      · simp [hphase]
      · rwa [hphase]
  | post c env fate =>
    by_cases hc : ∃ target hid, n.commands c = .loaded target hid
    · obtain ⟨target, hid, hc⟩ := hc
      have hne : n.commands c ≠ .failed := by simp [hc]
      have habstract := (commands_abstract h hne).trans hc
      simp only [withoutHTTP, hc]
      rcases act_post p flags tokens n hc env fate with
        ⟨⟨e, hpost⟩, hact⟩ | ⟨s, hpost, hact⟩
      · rw [hact, List.append_nil, step_post_error habstract hpost, abstract_set n (h.not_mem hne)]
        rfl
      · rw [hact, step_post rfl habstract hpost, abstract_taken n (h.not_mem hne)]
        rfl
    · have hidle : ∀ target hid, n.commands c ≠ .loaded target hid :=
        fun target hid hloaded => hc ⟨target, hid, hloaded⟩
      rw [act_post_idle n hidle, List.append_nil]
      have habstract : ∀ target hid, (n.abstract taken).commands c ≠ .loaded target hid := by
        intro target hid
        rcases commands_abstract_cases taken n c with hphase | hphase
        · simp [hphase]
        · rw [hphase]
          exact hidle target hid
      cases hphase : n.commands c with
      | loaded target hid => exact absurd hphase (hidle target hid)
      | waiting => simp only [withoutHTTP, hphase, step_post_idle habstract, List.map_nil]
      | saved => simp only [withoutHTTP, hphase, step_post_idle habstract, List.map_nil]
      | failed => simp only [withoutHTTP, hphase, step_post_idle habstract, List.map_nil]

/-- Every run of the commands over HTTP, whatever becomes of their requests, is the run of them on the
database in which a listing fails exactly when the command gets no answer, its session is refused or
the read fails, and a POST, apart from what the table refuses, exactly when it does not get there, the
session is refused, the record is too long or the database fails. The commands stand as they do there,
save that one fails without an answer although the table has taken its record. -/
theorem modify_refines (p : Portal) (flags : Nat → k.resource.Flag → Option Str) (tokens : Nat → Str)
    (n : Net k id) (ms : List Move) :
    Run.final (CliModify.step flags) (n.abstract [])
          (Run.told (Net.act p flags tokens) (withoutHTTP p flags tokens) n ms) =
        (Run.final (Net.act p flags tokens) n ms).abstract (Run.events (Net.act p flags tokens) n ms) ∧
      Run.events (CliModify.step flags) (n.abstract [])
          (Run.told (Net.act p flags tokens) (withoutHTTP p flags tokens) n ms) =
        (Run.events (Net.act p flags tokens) n ms).map Taken.command ∧
      Unheard (Run.events (Net.act p flags tokens) n ms) (Run.final (Net.act p flags tokens) n ms) := by
  have hstart : Unheard [] n := fun _ hmem => by cases hmem
  have hinv (taken : List Taken) (n : Net k id) (m : Move) (h : Unheard taken n) :
      Unheard (taken ++ (n.act p flags tokens m).2) (n.act p flags tokens m).1 := h.act m
  obtain ⟨hfinal, hevents⟩ := Run.final_events_told hinv
    (fun _ _ m h => act_simulated p flags tokens h m) ms [] n hstart
  exact ⟨hfinal, hevents, Run.inv_events hinv ms [] n hstart⟩

theorem search_found {records : List k.resource.Record} {first : k.resource.Record}
    (h : records.find? (fun r => k.resource.id r = id.1) = some first) :
    ∃ hid, search id records = .loaded first hid := by
  unfold search
  split
  · rename_i hnone
    rw [hnone] at h
    cases h
  · rename_i target hsome
    rw [hsome] at h
    cases h
    exact ⟨by simpa using List.find?_some hsome, rfl⟩

theorem authorized_iff (hlib : p.sessions.Lawful) {username : Str} {t : Nat}
    (hcarries : p.sessions.Carries token p.authManager.jwtSecret (Auth.sessionClaims username "admin".toList t))
    (hne : token ≠ []) (hspace : ∀ c ∈ token, Text.isSpace c = false) :
    authorized p env token = true ↔ env.now < Auth.expiry t := by
  have hbearer : Auth.bearerToken (bearer token) = token := by
    rw [bearer, if_neg hne]
    exact Auth.bearerToken_bearer hspace
  have hvalid : p.authManager.validateJWT p.sessions env.now token =
      .ok (Auth.sessionClaims username "admin".toList t) ↔ env.now < Auth.expiry t :=
    Auth.validateJWT_carries hlib hcarries
  rw [← hvalid]
  unfold authorized
  constructor
  · intro h
    cases hauth : p.authManager.authorizeAdmin p.sessions env.now (bearer token) with
    | error d =>
      rw [hauth] at h
      cases h
    | ok claims =>
      obtain ⟨_, hv⟩ := Auth.authenticate_ok (Auth.authorizeAdmin_ok.mp hauth).1
      rw [hbearer] at hv
      have hparsed := (Auth.validateJWT_ok hlib hv).1.symm.trans hcarries.parsed
      have hsame : claims = Auth.sessionClaims username "admin".toList t :=
        congrArg Auth.Token.claims (Except.ok.inj hparsed)
      rw [hv, hsame]
  · intro h
    have hauth : p.authManager.authenticate p.sessions env.now (bearer token) =
        .ok (Auth.sessionClaims username "admin".toList t) :=
      Auth.authenticate_of_ok (by rwa [hbearer]) (by rwa [hbearer])
    rw [Auth.authorizeAdmin_ok.mpr ⟨hauth, rfl⟩]
    rfl

theorem getFault_none {read : Env} {fate : Fate} : getFault p k token read fate = none ↔
    fate = .answered ∧ authorized p read token = true ∧ readFault k read = none := by
  unfold getFault
  by_cases h : fate = .answered ∧ authorized p read token = true
  · rw [if_pos h]
    exact ⟨fun hnone => ⟨h.1, h.2, hnone⟩, fun hall => hall.2.2⟩
  · rw [if_neg h]
    constructor
    · intro hnone
      cases hnone
    · rintro ⟨hanswered, hauthorized, _⟩
      exact absurd ⟨hanswered, hauthorized⟩ h

theorem postFails_false {write : Env} {fate : Fate} {rec : k.resource.Record} :
    postFails p k token write fate rec = false ↔ fate ≠ .lost ∧ authorized p write token = true ∧
      (Text.bytes (encode k rec).compact).length ≤ maxBody ∧ write.faults.db = false := by
  simp only [postFails, tooLong, Bool.or_eq_false_iff, decide_eq_false_iff_not, Bool.not_eq_false', not_lt,
    ne_eq, and_assoc]

/-- The table takes a record exactly when that gets there and fits. -/
theorem post_ok_iff {rec : k.resource.Record} {write : Env} {fate : Fate} {db : DB} :
    (∃ db', k.resource.post (postFails p k token write fate rec) write.newID rec db = .ok db') ↔
      (fate ≠ .lost ∧ authorized p write token = true ∧
        (Text.bytes (encode k rec).compact).length ≤ maxBody ∧ write.faults.db = false) ∧
        ∃ db', k.resource.post false write.newID rec db = .ok db' := by
  rw [← postFails_false]
  cases hfails : postFails p k token write fate rec with
  | false => exact ⟨fun h => ⟨rfl, h⟩, And.right⟩
  | true =>
    obtain ⟨e, herror⟩ := post_fails write.newID rec db
    rw [herror]
    constructor
    · rintro ⟨_, hok⟩
      cases hok
    · rintro ⟨hok, _⟩
      cases hok

/-- The record that the commands have as their target, as the table has it. -/
def Net.row (n : Net k id) : Option k.resource.Record := (n.abstract []).row

theorem row_set (n : Net k id) (c : Nat) (phase : Phase k.resource id) :
    (n.setCommand n.state c phase).row = n.row := CliModify.row_of_db rfl

/-- What comes of the second request of a command. -/
theorem saved_post (p : Portal) (flags : Nat → k.resource.Flag → Option Str) (tokens : Nat → Str)
    (n : Net k id) {c : Nat} {target : k.resource.Record} {hid : k.resource.id target = id.1}
    (hc : n.commands c = .loaded target hid) (write : Env) (fate : Fate) :
    ((n.act p flags tokens (.post c write fate)).1.commands c = .saved ↔ fate = .answered ∧
      ∃ db, k.resource.post (postFails p k (tokens c) write fate (k.resource.fields.edit (flags c) target))
        write.newID (k.resource.fields.edit (flags c) target) n.state.stores.db = .ok db) ∧
    ((n.act p flags tokens (.post c write fate)).1.row = some (k.resource.fields.edit (flags c) target) ∨
      (n.act p flags tokens (.post c write fate)).1.commands c ≠ .saved ∧
        (n.act p flags tokens (.post c write fate)).1.row = n.row) ∧
    (fate ≠ .unanswered → (n.act p flags tokens (.post c write fate)).1.commands c ≠ .saved →
      (n.act p flags tokens (.post c write fate)).1.row = n.row) := by
  rcases act_post p flags tokens n hc write fate with
    ⟨⟨e, hpost⟩, hact⟩ | ⟨s, hpost, hact⟩
  · rw [hact, hpost, commands_setCommand, row_set]
    have hne : (Phase.failed : Phase k.resource id) ≠ .saved := by simp
    refine ⟨iff_of_false hne ?_, .inr ⟨hne, rfl⟩, fun _ _ => rfl⟩
    rintro ⟨_, _, hok⟩
    cases hok
  · have hrow : (n.act p flags tokens (.post c write fate)).1.row =
        some (k.resource.fields.edit (flags c) target) := by
      rw [hact]
      exact CliModify.row_of_post (s := n.abstract []) hid hpost rfl
    have hreached : fate ≠ .lost := (post_ok_iff.mp ⟨_, hpost⟩).1.1
    rw [hrow]
    rw [hact, commands_setCommand, hpost]
    cases fate with
    | lost => exact absurd rfl hreached
    | unanswered => simp
    | answered => simp

/-- The first request of a command whose record exists. -/
theorem commands_get (p : Portal) (flags : Nat → k.resource.Flag → Option Str) (tokens : Nat → Str)
    (n : Net k id) {c : Nat} (hwait : n.commands c = .waiting) {first : k.resource.Record}
    (hfirst : n.row = some first) (read : Env) (fate : Fate) :
    (getFault p k (tokens c) read fate = none ∧
        ∃ hid, (n.act p flags tokens (.get c read fate)).1.commands c = .loaded first hid) ∨
      (getFault p k (tokens c) read fate ≠ none ∧
        (n.act p flags tokens (.get c read fate)).1.commands c = .failed) := by
  rw [act_get n hwait, commands_setCommand]
  cases getFault p k (tokens c) read fate with
  | none => exact .inl ⟨rfl, search_found hfirst⟩
  | some _ => exact .inr ⟨Option.some_ne_none _, rfl⟩

theorem state_get (n : Net k id) (c : Nat) (read : Env) (fate : Fate) :
    (n.act p flags tokens (.get c read fate)).1.state = n.state := by
  by_cases hc : n.commands c = .waiting
  · rw [act_get n hc]
    rfl
  · rw [act_get_idle n hc]

/-- A command that nothing comes between is completed exactly when both its requests are answered,
its session has not expired at either, neither the read nor the database fails, and its record fits into
a body and the table. The row is then the record with the flags; otherwise it is as before, if the
portal's answer has not been lost. -/
theorem modify_completes (hlib : p.sessions.Lawful) (flags : Nat → k.resource.Flag → Option Str)
    (tokens : Nat → Str) (n : Net k id) {c : Nat} {username : Str} {t : Nat} (htime : Timely t)
    (hgrant : p.authManager.generateJWT p.sessions username "admin".toList t = .ok (tokens c))
    (hspace : ∀ x ∈ tokens c, Text.isSpace x = false) (hwait : n.commands c = .waiting)
    {first : k.resource.Record} (hfirst : n.row = some first) (read write : Env) (there back : Fate) :
    ((Run.final (Net.act p flags tokens) n [.get c read there, .post c write back]).commands c = .saved ↔
      (there = .answered ∧ read.now < Auth.expiry t ∧ readFault k read = none) ∧
        (back = .answered ∧ write.now < Auth.expiry t ∧ write.faults.db = false) ∧
        (Text.bytes (encode k (k.resource.fields.edit (flags c) first)).compact).length ≤ maxBody ∧
        ∃ db, k.resource.post false write.newID (k.resource.fields.edit (flags c) first)
          n.state.stores.db = .ok db) ∧
    ((Run.final (Net.act p flags tokens) n [.get c read there, .post c write back]).commands c = .saved →
      (Run.final (Net.act p flags tokens) n [.get c read there, .post c write back]).row =
        some (k.resource.fields.edit (flags c) first)) ∧
    (back ≠ .unanswered →
      (Run.final (Net.act p flags tokens) n [.get c read there, .post c write back]).commands c ≠ .saved →
      (Run.final (Net.act p flags tokens) n [.get c read there, .post c write back]).row = some first) := by
  obtain ⟨hne, hcarries⟩ := Auth.carries_generateJWT hlib htime hgrant
  have hread : authorized p read (tokens c) = true ↔ _ := authorized_iff hlib hcarries hne hspace
  have hwrite : authorized p write (tokens c) = true ↔ _ := authorized_iff hlib hcarries hne hspace
  have hgot : (n.act p flags tokens (.get c read there)).1.row = some first := by
    rw [← hfirst]
    exact CliModify.row_of_db (congrArg (fun s => s.stores.db) (state_get n c read there))
  simp only [Run.final]
  rcases commands_get p flags tokens n hwait hfirst read there with
    ⟨hget, hid, hloaded⟩ | ⟨hget, hfailed⟩
  · obtain ⟨hsaved, hrow, hsame⟩ := saved_post p flags tokens _ hloaded write back
    rw [state_get, post_ok_iff, hwrite] at hsaved
    rw [getFault_none, hread] at hget
    refine ⟨?_, ?_, ?_⟩
    · rw [hsaved]
      constructor
      · rintro ⟨hback, ⟨_, hlive, hfits, hdb⟩, htable⟩
        exact ⟨hget, ⟨hback, hlive, hdb⟩, hfits, htable⟩
      · rintro ⟨_, ⟨hback, hlive, hdb⟩, hfits, htable⟩
        exact ⟨hback, ⟨by simp [hback], hlive, hfits, hdb⟩, htable⟩
    · intro hdone
      exact hrow.resolve_right fun hother => hother.1 hdone
    · intro hback hdone
      exact (hsame hback hdone).trans hgot
  · rw [act_post_idle _ (by simp [hfailed])]
    rw [ne_eq, getFault_none, hread] at hget
    refine ⟨iff_of_false (by simp [hfailed]) fun h => hget h.1, ?_, fun _ _ => hgot⟩
    intro hdone
    rw [hfailed] at hdone
    cases hdone

open CliModify (petID petDB petFlags petConnection)

def petNet : Net .connection petID := ⟨⟨⟨.local [], petDB⟩, [], []⟩, fun _ => .waiting⟩

/-- An hour after the login. -/
def petEnv : Env := plainEnv (3600 * Auth.second)

theorem granted_adminToken : localPortal.authManager.generateJWT localPortal.sessions "admin".toList
    "admin".toList 0 = .ok adminToken := rfl

theorem row_petNet : petNet.row = some petConnection := rfl

theorem modify_completes_pet :
    (Run.final (Net.act (k := .connection) localPortal petFlags fun _ => adminToken) petNet
      [.get 0 petEnv .answered, .post 0 petEnv .answered]).commands 0 = .saved := by
  have hcompletes := (modify_completes (p := localPortal) (k := .connection) Auth.hs256Package_lawful petFlags
    (fun _ => adminToken) petNet (c := 0) (t := 0) (by unfold Timely; decide) granted_adminToken
    (Auth.isSpace_signHS256 _ _) rfl row_petNet petEnv petEnv .answered .answered).1
  exact hcompletes.mpr ⟨⟨rfl, by decide, rfl⟩, ⟨rfl, by decide, rfl⟩, by decide +kernel, _, rfl⟩

end Simulation

end Janus.CliWire
