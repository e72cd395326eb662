import Janus.Portal
import Janus.ToolNames

/-!
# What an import leaves behind

The import writes its rows one by one and takes none of them back. It is
all-or-nothing exactly when it stops before the first row or no later row is
refused.
-/

namespace Janus.Portal

set_option autoImplicit false

open Storage OpenApi

/-- The identifiers generated for a connection and `n` endpoints are new to the database
and differ from each other. -/
structure FreshIDs (env : ImportEnv) (n : Nat) (db : DB) : Prop where
  connection : ∀ c ∈ db.connections, c.id ≠ env.connectionID
  endpoint : ∀ i < n, ∀ e ∈ db.endpoints, e.id ≠ env.endpointID i
  distinct : ∀ i < n, ∀ j < n, i ≠ j → env.endpointID i ≠ env.endpointID j

/-- The loop can write all its rows from row `i` on. -/
structure Insertable (env : ImportEnv) (i : Nat) (pes : List ParsedEndpoint) (db : DB) : Prop where
  noFailure : ∀ j < pes.length, env.fails (i + j + 1) = false
  distinct : (pes.map ParsedEndpoint.toolName).Nodup
  free : ∀ pe ∈ pes, ∀ e ∈ db.endpoints, e.toolName ≠ pe.toolName

/-- The rows that the loop adds. -/
def endpointRows (env : ImportEnv) (i : Nat) (pes : List ParsedEndpoint) :
    List APIEndpoint :=
  pes.mapIdx fun j pe =>
    let ep := importedEndpoint (env.endpointID (i + j)) env.connectionID pe
    { ep with definitionHash := ToolIntegrity.hash (DB.savedToolDef ep), version := 1 }

section Rows
variable {env : ImportEnv} {db db' : DB}

theorem pinned_of_fresh {ep : APIEndpoint} (h : ∀ e ∈ db.endpoints, e.id ≠ ep.id) :
    DB.pinned db ep =
      { ep with definitionHash := ToolIntegrity.hash (DB.savedToolDef ep), version := 1 } := by
  have hnone : db.endpoints.find ep.id = none := Table.find_eq_none.mpr h
  simp [DB.pinned, hnone]

/-- A write of a row with a new identifier appends it, and is refused exactly when the
store fails or the tool name is taken. -/
theorem saveEndpoint_fresh {ep : APIEndpoint} {fails : Bool}
    (hid : ∀ e ∈ db.endpoints, e.id ≠ ep.id)
    (hconn : (db.connections.find ep.connectionID).isSome = true) :
    if fails = false ∧ ∀ e ∈ db.endpoints, e.toolName ≠ ep.toolName then
      ∃ db', db.saveEndpoint fails ep = .ok db' ∧ db'.connections = db.connections ∧
        db'.endpoints.rows = db.endpoints.rows ++ [DB.pinned db ep]
    else ∃ e, db.saveEndpoint fails ep = .error e := by
  have hnone : (db.connections.find ep.connectionID).isNone = false := by
    rw [Option.isNone_eq_false_iff]
    exact hconn
  have hpname : (DB.pinned db ep).toolName = ep.toolName := rfl
  split
  · rename_i h
    obtain ⟨hf, hfree⟩ := h
    have hclash : ¬ db.endpoints.Clash (DB.pinned db ep) := by
      intro hc
      obtain ⟨e, he, _, hn⟩ := hc
      exact hfree e he (hn.trans hpname)
    obtain ⟨t, ht⟩ := Option.ne_none_iff_exists'.mp (mt Table.upsert_eq_none.mp hclash)
    have hrows := (Table.upsert_eq_some.mp ht).2
    have hput : Table.put APIEndpoint.id (DB.pinned db ep) db.endpoints.rows = _ :=
      Table.put_of_fresh hid
    refine ⟨{ db with endpoints := t }, ?_, rfl, hrows.trans hput⟩
    simp [DB.saveEndpoint, hf, hnone, ht]
  · rename_i h
    by_cases hf : fails = true
    · exact ⟨.unavailable, by simp [DB.saveEndpoint, hf]⟩
    · have hex : ∃ e ∈ db.endpoints, e.toolName = ep.toolName := by
        by_contra hne
        push Not at hne
        exact h ⟨by simpa using hf, hne⟩
      obtain ⟨e, he, hn⟩ := hex
      have hclash : db.endpoints.Clash (DB.pinned db ep) := ⟨e, he, hid e he, hn⟩
      have hnone' := Table.upsert_eq_none.mpr hclash
      exact ⟨.uniqueViolation, by simp [DB.saveEndpoint, hf, hnone, hnone']⟩

theorem insertable_nil (i : Nat) : Insertable env i [] db where
  noFailure := by simp
  distinct := List.nodup_nil
  free := by simp

/-- The condition on the remaining rows, seen from the database before and after a row. -/
theorem insertable_cons {i : Nat} {pe : ParsedEndpoint} {pes : List ParsedEndpoint}
    {row : APIEndpoint} (hrow : row.toolName = pe.toolName)
    (hrows : db'.endpoints.rows = db.endpoints.rows ++ [row]) :
    Insertable env i (pe :: pes) db ↔
      (env.fails (i + 1) = false ∧ ∀ e ∈ db.endpoints, e.toolName ≠ pe.toolName) ∧
        Insertable env (i + 1) pes db' := by
  have hmem (e : APIEndpoint) : e ∈ db'.endpoints ↔ e ∈ db.endpoints ∨ e = row := by
    simp [Table.mem_def, hrows]
  constructor
  · intro h
    obtain ⟨hn, hd⟩ := List.nodup_cons.mp h.distinct
    refine ⟨⟨h.noFailure 0 (by simp), h.free pe List.mem_cons_self⟩, ?_, hd, ?_⟩
    · intro j hj
      have := h.noFailure (j + 1) (by simpa using hj)
      rwa [show i + (j + 1) + 1 = i + 1 + j + 1 by omega] at this
    · intro q hq e he
      rcases (hmem e).mp he with he | rfl
      · exact h.free q (List.mem_cons_of_mem pe hq) e he
      · rw [hrow]
        intro heq
        exact hn (List.mem_map.mpr ⟨q, hq, heq.symm⟩)
  · intro h
    obtain ⟨⟨hf, hfree⟩, hrest⟩ := h
    refine ⟨?_, List.nodup_cons.mpr ⟨?_, hrest.distinct⟩, ?_⟩
    · intro j hj
      cases j with
      | zero => exact hf
      | succ j =>
        have := hrest.noFailure j (by simpa using hj)
        rwa [show i + 1 + j + 1 = i + (j + 1) + 1 by omega] at this
    · intro hm
      obtain ⟨q, hq, heq⟩ := List.mem_map.mp hm
      exact hrest.free q hq row ((hmem row).mpr (Or.inr rfl)) (hrow.trans heq.symm)
    · intro q hq e he
      rcases List.mem_cons.mp hq with rfl | hq
      · exact hfree e he
      · exact hrest.free q hq e ((hmem e).mpr (Or.inl he))

theorem endpointRows_cons (i : Nat) (pe : ParsedEndpoint) (pes : List ParsedEndpoint) :
    endpointRows env i (pe :: pes) =
      endpointRows env i [pe] ++ endpointRows env (i + 1) pes := by
  simp [endpointRows, List.mapIdx_cons, Nat.add_assoc, Nat.add_comm 1]

/-- The loop keeps the connections, comes to its end exactly when every row can be
written, and has then appended one row for each endpoint. -/
theorem saveEndpoints_spec {n : Nat}
    (hdis : ∀ i < n, ∀ j < n, i ≠ j → env.endpointID i ≠ env.endpointID j)
    (pes : List ParsedEndpoint) (i : Nat) (db : DB) (hn : i + pes.length ≤ n)
    (hid : ∀ j, i ≤ j → j < n → ∀ e ∈ db.endpoints, e.id ≠ env.endpointID j)
    (hconn : (db.connections.find env.connectionID).isSome = true) :
    ∃ ok db', saveEndpoints env i pes db = (ok, db') ∧ db'.connections = db.connections ∧
      (ok = true ↔ Insertable env i pes db) ∧
      (ok = true → db'.endpoints.rows = db.endpoints.rows ++ endpointRows env i pes) := by
  induction pes generalizing i db with
  | nil => exact ⟨true, db, rfl, rfl, by simp [insertable_nil], by simp [endpointRows]⟩
  | cons pe pes ih =>
    rw [List.length_cons] at hn
    have hfresh : ∀ e ∈ db.endpoints,
        e.id ≠ (importedEndpoint (env.endpointID i) env.connectionID pe).id :=
      hid i (le_refl i) (by omega)
    have hsave := @saveEndpoint_fresh db _ (env.fails (i + 1)) hfresh hconn
    split at hsave
    · rename_i hok
      obtain ⟨db₁, hs, hc, hrows⟩ := hsave
      have hid₁ : ∀ j, i + 1 ≤ j → j < n → ∀ e ∈ db₁.endpoints, e.id ≠ env.endpointID j := by
        intro j hj hjn e he
        rw [Table.mem_def, hrows, List.mem_append, List.mem_singleton] at he
        rcases he with he | rfl
        · exact hid j (by omega) hjn e he
        · exact hdis i (by omega) j hjn (by omega)
      obtain ⟨ok, db₂, hrun, hc₂, hiff, hres⟩ :=
        ih (i + 1) db₁ (by omega) hid₁ (by rw [hc]; exact hconn)
      refine ⟨ok, db₂, ?_, hc₂.trans hc, ?_, ?_⟩
      · simp only [saveEndpoints, hs, hrun]
      · rw [hiff, insertable_cons rfl hrows]
        exact ⟨fun h => ⟨hok, h⟩, fun h => h.2⟩
      · intro h
        have hrow : endpointRows env i [pe] =
            [DB.pinned db (importedEndpoint (env.endpointID i) env.connectionID pe)] := by
          rw [pinned_of_fresh hfresh]
          rfl
        rw [hres h, hrows, endpointRows_cons, hrow, List.append_assoc]
    · rename_i hno
      obtain ⟨e, he⟩ := hsave
      refine ⟨false, db, by simp only [saveEndpoints, he], rfl, ?_, by simp⟩
      constructor
      · intro h
        cases h
      · intro h
        exact absurd ⟨h.noFailure 0 (by simp), h.free pe List.mem_cons_self⟩ hno

end Rows

/-- One connection and one endpoint for each parsed operation were added. -/
def Imported (env : ImportEnv) (parsed : ParsedConnection) (db db' : DB) :
    Prop :=
  db'.connections.rows = db.connections.rows ++ [importedConnection env parsed] ∧
    db'.endpoints.rows = db.endpoints.rows ++ endpointRows env 0 parsed.endpoints

/-- An answer other than 200 goes with unchanged tables, the answer 200 with a full import. -/
def AllOrNothing (env : ImportEnv) (read : Except ImportResponse ParsedConnection)
    (db : DB) (result : ImportResponse × DB) : Prop :=
  (result.1.status ≠ 200 →
    result.2.connections = db.connections ∧ result.2.endpoints = db.endpoints) ∧
  (result.1.status = 200 → ∃ parsed, read = .ok parsed ∧ Imported env parsed db result.2)

/-- The store refuses the connection of the import. -/
def ConnectionRefused (env : ImportEnv) (parsed : ParsedConnection) (db : DB) : Prop :=
  env.fails 0 = true ∨ ∃ c ∈ db.connections, c.name = parsed.name

theorem saveConnection_fresh {env : ImportEnv} {parsed : ParsedConnection} {db : DB}
    (hid : ∀ c ∈ db.connections, c.id ≠ env.connectionID) :
    (ConnectionRefused env parsed db ∧
      ∃ e, db.saveConnection (env.fails 0) (importedConnection env parsed) = .error e) ∨
    (¬ ConnectionRefused env parsed db ∧
      ∃ db', db.saveConnection (env.fails 0) (importedConnection env parsed) = .ok db' ∧
        db'.endpoints = db.endpoints ∧
        db'.connections.rows = db.connections.rows ++ [importedConnection env parsed]) := by
  have hclash : db.connections.Clash (importedConnection env parsed) ↔
      ∃ c ∈ db.connections, c.name = parsed.name := by
    constructor
    · intro h
      obtain ⟨c, hc, _, hn⟩ := h
      exact ⟨c, hc, hn⟩
    · intro h
      obtain ⟨c, hc, hn⟩ := h
      exact ⟨c, hc, hid c hc, hn⟩
  by_cases hf : env.fails 0 = true
  · exact Or.inl ⟨Or.inl hf, .unavailable, by simp [DB.saveConnection, hf]⟩
  · by_cases hc : db.connections.Clash (importedConnection env parsed)
    · have hnone := Table.upsert_eq_none.mpr hc
      exact Or.inl ⟨Or.inr (hclash.mp hc), .uniqueViolation, by simp [DB.saveConnection, hf, hnone]⟩
    · obtain ⟨t, ht⟩ := Option.ne_none_iff_exists'.mp (mt Table.upsert_eq_none.mp hc)
      have hput : Table.put APIConnection.id (importedConnection env parsed) db.connections.rows = _ :=
        Table.put_of_fresh hid
      refine Or.inr ⟨?_, { db with connections := t }, ?_, rfl,
        (Table.upsert_eq_some.mp ht).2.trans hput⟩
      · intro h
        rcases h with h | h
        · exact hf h
        · exact hc (hclash.mpr h)
      · simp [DB.saveConnection, hf, ht]

/-- The writes of an import are all-or-nothing exactly when the connection is refused or
every endpoint can be written. -/
theorem allOrNothing_persist {env : ImportEnv} (parsed : ParsedConnection)
    {db : DB} (hfresh : FreshIDs env parsed.endpoints.length db) :
    AllOrNothing env (.ok parsed) db (persist env parsed db) ↔
      ConnectionRefused env parsed db ∨ Insertable env 0 parsed.endpoints db := by
  have hsave := @saveConnection_fresh env parsed db hfresh.connection
  rcases hsave with ⟨hr, e, he⟩ | ⟨hr, db₁, hs, hep, hrows⟩
  · have hp : persist env parsed db = (.storeError, db) := by simp only [persist, he]
    rw [hp]
    exact ⟨fun _ => Or.inl hr, fun _ => ⟨fun _ => ⟨rfl, rfl⟩, fun h => by cases h⟩⟩
  · have hmem : importedConnection env parsed ∈ db₁.connections := by
      rw [Table.mem_def, hrows]
      simp
    have hconn : (db₁.connections.find env.connectionID).isSome = true :=
      Option.isSome_of_eq_some (Table.find_eq_some.mpr ⟨hmem, rfl⟩)
    obtain ⟨ok, db₂, hrun, hc₂, hiff, hres⟩ := @saveEndpoints_spec env _ hfresh.distinct
      parsed.endpoints 0 db₁ (by omega) (fun j _ => by rw [hep]; exact hfresh.endpoint j) hconn
    have hins : Insertable env 0 parsed.endpoints db₁ ↔ Insertable env 0 parsed.endpoints db := by
      constructor <;> intro h <;> refine ⟨h.noFailure, h.distinct, ?_⟩
      · rw [← hep]
        exact h.free
      · rw [hep]
        exact h.free
    cases ok with
    | true =>
      have hp : persist env parsed db = (.created env.connectionID parsed.name
          (parsed.endpoints.map ParsedEndpoint.toolName), db₂) := by
        simp only [persist, hs, hrun]
      rw [hp]
      have himp : Imported env parsed db db₂ := by
        refine ⟨by rw [hc₂, hrows], ?_⟩
        rw [hres rfl, hep]
      exact ⟨fun _ => Or.inr (hins.mp (hiff.mp rfl)),
        fun _ => ⟨fun h => absurd rfl h, fun _ => ⟨parsed, rfl, himp⟩⟩⟩
    | false =>
      have hp : persist env parsed db = (.storeError, db₂) := by
        simp only [persist, hs, hrun]
      rw [hp]
      constructor
      · intro h
        have hsame := (h.1 (by simp [ImportResponse.status])).1
        rw [hc₂] at hsame
        have hlen := congrArg (fun t => t.rows.length) hsame
        simp [hrows] at hlen
      · intro h
        rcases h with h | h
        · exact absurd h hr
        · exact absurd (hiff.mpr (hins.mpr h)) (by decide)

/-- An import that is not a dry run changes both tables in full or not at all exactly
when it is answered before its first write, its connection is refused, or its tool
names are pairwise distinct, new to the database and written without a failure. -/
theorem handleOpenAPIImport_allOrNothing_iff (yaml : Str → Option Yaml)
    (env : ImportEnv) (req : ImportRequest) (db : DB)
    (hdry : Text.equalFold req.dryRun "true".toList = false)
    (hfresh : ∀ parsed, readImport yaml req = .ok parsed →
      FreshIDs env parsed.endpoints.length db) :
    AllOrNothing env (readImport yaml req) db (handleOpenAPIImport yaml env req db) ↔
      ∀ parsed, readImport yaml req = .ok parsed →
        ConnectionRefused env parsed db ∨ Insertable env 0 parsed.endpoints db := by
  cases hr : readImport yaml req with
  | error resp =>
    have hstatus : resp.status ≠ 200 := by
      unfold readImport at hr
      grind [ImportResponse.status]
    have hh : handleOpenAPIImport yaml env req db = (resp, db) := by
      simp only [handleOpenAPIImport, hr]
    rw [hh]
    constructor
    · intro _ parsed h
      cases h
    · intro _
      exact ⟨fun _ => ⟨rfl, rfl⟩, fun h => absurd h hstatus⟩
  | ok parsed =>
    have hh : handleOpenAPIImport yaml env req db = persist env parsed db := by
      simp only [handleOpenAPIImport, hr, hdry, Bool.false_eq_true, if_false]
    rw [hh, allOrNothing_persist parsed (hfresh parsed hr)]
    constructor
    · intro h p hp
      cases hp
      exact h
    · intro h
      exact h parsed rfl

/-- Three operations, of which two are named `a_2`. -/
def clashingSpec : Str :=
  Json.compact (.obj [("openapi".toList, .str "3.0".toList),
    ("info".toList, .obj [("title".toList, .str "T".toList)]),
    ("servers".toList, .arr [.obj [("url".toList, .str "http://h".toList)]]),
    ("paths".toList, .obj [("/".toList, .obj [("get".toList, specOp "a"),
      ("put".toList, specOp "a"), ("post".toList, specOp "a_2")])])])

def clashingRequest : ImportRequest := ⟨true, some clashingSpec, [], []⟩

def countedIDs : ImportEnv := ⟨['c'], fun i => List.replicate i 'e', fun _ => false⟩

theorem freshIDs_empty (n : Nat) : FreshIDs countedIDs n (.empty false) where
  connection := by intro c hc; cases hc
  endpoint := by intro i _ e he; cases he
  distinct := by
    intro i _ j _ hij h
    exact hij (by simpa [countedIDs] using congrArg List.length h)

theorem handleOpenAPIImport_clashing :
    (handleOpenAPIImport noYaml countedIDs clashingRequest (.empty false)).1 = .storeError ∧
      (handleOpenAPIImport noYaml countedIDs clashingRequest (.empty false)).2.connections.rows ≠
        [] := by
  decide +kernel

theorem not_allOrNothing_of_partial {db : DB} {env : ImportEnv}
    {read : Except ImportResponse ParsedConnection} {result : ImportResponse × DB}
    (hresp : result.1 = .storeError) (hrows : result.2.connections ≠ db.connections) :
    ¬ AllOrNothing env read db result := by
  intro h
  exact hrows (h.1 (by rw [hresp]; decide)).1

theorem clashing_connections_ne :
    (handleOpenAPIImport noYaml countedIDs clashingRequest (.empty false)).2.connections ≠
      (DB.empty false).connections := by
  intro h
  exact handleOpenAPIImport_clashing.2 (congrArg Table.rows h)

/-- The connection and two endpoints stay when the third one is refused. -/
theorem handleOpenAPIImport_clashing_not_allOrNothing :
    ¬ AllOrNothing countedIDs (readImport noYaml clashingRequest) (.empty false)
      (handleOpenAPIImport noYaml countedIDs clashingRequest (.empty false)) :=
  not_allOrNothing_of_partial handleOpenAPIImport_clashing.1 clashing_connections_ne

theorem clashing_not_insertable :
    ¬ ∀ parsed, readImport noYaml clashingRequest = .ok parsed →
      ConnectionRefused countedIDs parsed (.empty false) ∨
        Insertable countedIDs 0 parsed.endpoints (.empty false) := by
  intro h
  have hall := (handleOpenAPIImport_allOrNothing_iff noYaml countedIDs clashingRequest (.empty false)
    (by decide) (fun parsed _ => freshIDs_empty parsed.endpoints.length)).mpr h
  exact not_allOrNothing_of_partial handleOpenAPIImport_clashing.1 clashing_connections_ne hall

end Janus.Portal
