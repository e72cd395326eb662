import Janus.RowOrder

/-!
# Endpoints without a connection

The schema declares the foreign key of an endpoint once for both drivers, but SQLite
enforces it only when the data source asks for it, and `NewDB` never does. A run of
writes keeps every endpoint on an existing connection exactly when no save puts one on a
missing connection and no delete leaves some behind; where the key is enforced, every
write is of that kind.
-/

namespace Janus.Server

set_option autoImplicit false

open Storage

theorem saveEndpoint_eq_ok_iff {fails : Bool} {ep : APIEndpoint} {db db' : DB} :
    db.saveEndpoint fails ep = .ok db' ↔
      fails = false ∧
        (db.foreignKeys = true → ∃ conn ∈ db.connections, conn.id = ep.connectionID) ∧
        ∃ t, db.endpoints.upsert (db.pinned ep) = some t ∧ db' = { db with endpoints := t } := by
  have hfind : (db.connections.find ep.connectionID).isNone = true ↔
      ¬ ∃ conn ∈ db.connections, conn.id = ep.connectionID := by
    rw [Option.isNone_iff_eq_none, Table.find_eq_none]
    push Not
    rfl
  unfold DB.saveEndpoint
  cases fails with
  | true => simp
  | false =>
    rw [if_neg Bool.false_ne_true]
    by_cases hkey : (db.foreignKeys && (db.connections.find ep.connectionID).isNone) = true
    · obtain ⟨hon, hnone⟩ := Bool.and_eq_true_iff.mp hkey
      rw [if_pos hkey]
      refine iff_of_false (fun h => by cases h) ?_
      rintro ⟨_, hconn, _⟩
      exact hfind.mp hnone (hconn hon)
    · have hconn : db.foreignKeys = true → ∃ conn ∈ db.connections, conn.id = ep.connectionID := by
        intro hon
        by_contra hno
        exact hkey (Bool.and_eq_true_iff.mpr ⟨hon, hfind.mpr hno⟩)
      rw [if_neg hkey]
      cases hu : db.endpoints.upsert (db.pinned ep) with
      | none => simp
      | some t =>
        constructor
        · intro h
          exact ⟨rfl, hconn, t, rfl, (Except.ok.inj h).symm⟩
        · rintro ⟨_, _, t', ht', rfl⟩
          rw [Option.some.inj ht']

theorem deleteConnection_eq_ok_iff {fails : Bool} {id : Str} {db db' : DB} :
    db.deleteConnection fails id = .ok db' ↔
      fails = false ∧ db' = { db with
        connections := db.connections.delete id
        endpoints := if db.foreignKeys then db.endpoints.keep fun e => e.connectionID ≠ id
          else db.endpoints } := by
  unfold DB.deleteConnection
  cases fails with
  | true => simp
  | false =>
    rw [if_neg Bool.false_ne_true, Except.ok.injEq]
    exact ⟨fun h => ⟨rfl, h.symm⟩, fun h => h.2.symm⟩

theorem deleteConnection_error {fails : Bool} {id : Str} {db : DB} {e : StoreError}
    (h : db.deleteConnection fails id = .error e) : fails = true := by
  cases fails with
  | true => rfl
  | false => cases h

theorem mem_endpoints_deleteConnection {fails : Bool} {id : Str} {db db' : DB}
    (h : db.deleteConnection fails id = .ok db') {e : APIEndpoint} :
    e ∈ db'.endpoints ↔ e ∈ db.endpoints ∧ (db.foreignKeys = true → e.connectionID ≠ id) := by
  obtain ⟨_, rfl⟩ := deleteConnection_eq_ok_iff.mp h
  dsimp only
  cases db.foreignKeys with
  | true => simp [Table.mem_keep]
  | false => simp

def postgres (dbPath : Str) : Bool :=
  Text.hasPrefix dbPath "postgres://".toList || Text.hasPrefix dbPath "postgresql://".toList

/-- A database just opened on an empty schema; `pragma` says which SQLite data sources turn
the foreign keys on. -/
def newDB (pragma : Str → Bool) (dbPath : Str) : DB := .empty (postgres dbPath || pragma dbPath)

/-- Every endpoint is on an existing connection. -/
def NoOrphans (db : DB) : Prop :=
  ∀ ep ∈ db.endpoints, ∃ conn ∈ db.connections, conn.id = ep.connectionID

/-- No endpoint of the connection is left, and the tool name of each that there was can be
saved again, on any connection and under any id. -/
def ConnectionGone (id : Str) (db db' : DB) : Prop :=
  (∀ ep ∈ db'.endpoints, ep.connectionID ≠ id) ∧
    ∀ ep ∈ db.endpoints, ep.connectionID = id → ∀ ep', ep'.toolName = ep.toolName →
      (∃ conn ∈ db'.connections, conn.id = ep'.connectionID) → ∃ d, db'.saveEndpoint false ep' = .ok d

/-- The write puts no endpoint on a missing connection and leaves none behind. -/
def Attached (db : DB) : DbOp → Prop
  | .saveEndpoint fails ep => fails = true ∨ db.foreignKeys = true ∨
      db.endpoints.Clash ep ∨ ∃ conn ∈ db.connections, conn.id = ep.connectionID
  | .deleteConnection fails id => fails = true ∨ db.foreignKeys = true ∨
      ∀ ep ∈ db.endpoints, ep.connectionID ≠ id
  | .saveConnection _ _ => True
  | .deleteEndpoint _ _ => True

theorem noOrphans_saveConnection {db : DB} (hn : NoOrphans db) {conn : APIConnection}
    {t : Table APIConnection APIConnection.id APIConnection.name}
    (ht : db.connections.upsert conn = some t) : NoOrphans { db with connections := t } := by
  intro ep hep
  obtain ⟨c, hc, hid⟩ := hn ep hep
  by_cases hsame : c.id = conn.id
  · exact ⟨conn, (Table.mem_upsert ht).mpr (Or.inl rfl), hsame.symm.trans hid⟩
  · exact ⟨c, (Table.mem_upsert ht).mpr (Or.inr ⟨hc, hsame⟩), hid⟩

theorem noOrphans_saveEndpoint {db : DB} (hn : NoOrphans db) {ep : APIEndpoint}
    {t : Table APIEndpoint APIEndpoint.id APIEndpoint.toolName}
    (ht : db.endpoints.upsert (db.pinned ep) = some t) :
    NoOrphans { db with endpoints := t } ↔ ∃ conn ∈ db.connections, conn.id = ep.connectionID := by
  constructor
  · intro h
    exact h (db.pinned ep) ((Table.mem_upsert ht).mpr (Or.inl rfl))
  · intro h e he
    rcases (Table.mem_upsert ht).mp he with rfl | ⟨he, _⟩
    · exact h
    · exact hn e he

theorem noOrphans_deleteConnection {db db' : DB} (hn : NoOrphans db) {fails : Bool} {id : Str}
    (h : db.deleteConnection fails id = .ok db') :
    NoOrphans db' ↔ db.foreignKeys = true ∨ ∀ ep ∈ db.endpoints, ep.connectionID ≠ id := by
  have hconns : ∀ c, c ∈ db'.connections ↔ c ∈ db.connections ∧ c.id ≠ id := by
    intro c
    rw [(DB.deleteConnection_ok h).1, Table.mem_delete]
  constructor
  · intro h'
    by_cases hkey : db.foreignKeys = true
    · exact Or.inl hkey
    · refine Or.inr fun ep hep hid => ?_
      have hleft : ep ∈ db'.endpoints :=
        (mem_endpoints_deleteConnection h).mpr ⟨hep, fun hon => absurd hon hkey⟩
      obtain ⟨c, hc, hcid⟩ := h' ep hleft
      exact ((hconns c).mp hc).2 (hcid.trans hid)
  · intro hcond ep hep
    obtain ⟨hmem, hkeep⟩ := (mem_endpoints_deleteConnection h).mp hep
    have hne : ep.connectionID ≠ id := hcond.elim hkeep fun hnone => hnone ep hmem
    obtain ⟨c, hc, hcid⟩ := hn ep hmem
    exact ⟨c, (hconns c).mpr ⟨hc, fun he => hne (hcid.symm.trans he)⟩, hcid⟩

theorem noOrphans_apply_iff {db : DB} (hn : NoOrphans db) (op : DbOp) :
    NoOrphans (op.apply db) ↔ Attached db op := by
  unfold DbOp.apply
  cases op with
  | saveConnection fails conn =>
    refine iff_of_true ?_ trivial
    split
    · rename_i db' hexec
      obtain ⟨_, t, ht, rfl⟩ := DB.saveConnection_ok hexec
      exact noOrphans_saveConnection hn ht
    · exact hn
  | deleteConnection fails id =>
    split
    · rename_i db' hexec
      obtain ⟨hf, _⟩ := deleteConnection_eq_ok_iff.mp hexec
      rw [noOrphans_deleteConnection hn hexec]
      simp [Attached, hf]
    · rename_i e hexec
      exact iff_of_true hn (Or.inl (deleteConnection_error hexec))
  | saveEndpoint fails ep =>
    split
    · rename_i db' hexec
      obtain ⟨hf, hkey, t, ht, rfl⟩ := saveEndpoint_eq_ok_iff.mp hexec
      have hclash : ¬ db.endpoints.Clash ep := (Table.upsert_eq_some.mp ht).1
      rw [noOrphans_saveEndpoint hn ht]
      constructor
      · exact fun hc => Or.inr (Or.inr (Or.inr hc))
      · rintro (h | h | h | h)
        · cases hf.symm.trans h
        · exact hkey h
        · exact absurd h hclash
        · exact h
    · rename_i e hexec
      refine iff_of_true hn ?_
      by_contra hno
      simp only [Attached, not_or] at hno
      obtain ⟨hf, hkey, hclash, _⟩ := hno
      cases ht : db.endpoints.upsert (db.pinned ep) with
      | none =>
        have hpinned : db.endpoints.Clash (db.pinned ep) := Table.upsert_eq_none.mp ht
        exact hclash hpinned
      | some t =>
        have hok := saveEndpoint_eq_ok_iff.mpr
          ⟨by simpa using hf, fun hon => absurd hon hkey, t, ht, rfl⟩
        rw [DbOp.exec, hok] at hexec
        cases hexec
  | deleteEndpoint fails id =>
    refine iff_of_true ?_ trivial
    split
    · rename_i db' hexec
      rw [DB.deleteEndpoint_ok hexec]
      exact fun ep hep => hn ep (Table.mem_delete.mp hep).1
    · exact hn

theorem connectionGone_of_noOrphans {db db' : DB} {fails : Bool} {id : Str}
    (h : db.deleteConnection fails id = .ok db') (hn : NoOrphans db') : ConnectionGone id db db' := by
  have hgone : ∀ ep ∈ db'.endpoints, ep.connectionID ≠ id := by
    intro ep hep hid
    obtain ⟨c, hc, hcid⟩ := hn ep hep
    rw [(DB.deleteConnection_ok h).1] at hc
    exact (Table.mem_delete.mp hc).2 (hcid.trans hid)
  refine ⟨hgone, ?_⟩
  intro ep hep hid ep' hname hconn
  -- The name is unique among the rows, and the row that had it is gone.
  have hclash : ¬ db'.endpoints.Clash (db'.pinned ep') := by
    rintro ⟨e, he, _, hsame⟩
    have he' : e ∈ db.endpoints := (DB.deleteConnection_ok h).2 e he
    have heq : e = ep := Table.eq_of_uniq_eq he' hep (hsame.trans hname)
    exact hgone e he (heq ▸ hid)
  cases ht : db'.endpoints.upsert (db'.pinned ep') with
  | none => exact absurd (Table.upsert_eq_none.mp ht) hclash
  | some t => exact ⟨_, saveEndpoint_eq_ok_iff.mpr ⟨rfl, fun _ => hconn, t, ht, rfl⟩⟩

/-- At every point of the run no endpoint is without a connection, and every delete of a
connection that has succeeded has taken its endpoints with it. -/
def NoOrphanTools (db : DB) (ops : List DbOp) : Prop :=
  ∀ n, NoOrphans (runOps (ops.take n) db) ∧
    ∀ fails id db', ops[n]? = some (.deleteConnection fails id) →
      (runOps (ops.take n) db).deleteConnection fails id = .ok db' →
        ConnectionGone id (runOps (ops.take n) db) db'

theorem runOps_take_succ {ops : List DbOp} {n : Nat} {op : DbOp} (h : ops[n]? = some op) (db : DB) :
    runOps (ops.take (n + 1)) db = op.apply (runOps (ops.take n) db) := by
  rw [List.take_add_one, h, runOps, List.foldl_append]
  rfl

/-- In a run on a new database, of either driver, there are no orphan tools at any point
exactly when every write of it is attached. -/
theorem noOrphanTools_iff (pragma : Str → Bool) (dbPath : Str) (ops : List DbOp) :
    NoOrphanTools (newDB pragma dbPath) ops ↔
      Run.Along dbStep Attached (newDB pragma dbPath) ops := by
  have hempty : NoOrphans (newDB pragma dbPath) := by
    intro ep hep
    cases hep
  have hstep : ∀ db op, NoOrphans db → (NoOrphans (dbStep db op).1 ↔ Attached db op) :=
    fun db op hn => noOrphans_apply_iff hn op
  rw [← Run.along_iff_inv hstep ops _ hempty]
  simp only [final_dbStep]
  constructor
  · exact fun h n => (h n).1
  · intro h n
    refine ⟨h n, ?_⟩
    intro fails id db' hop hexec
    refine connectionGone_of_noOrphans hexec ?_
    have hnext := h (n + 1)
    rw [runOps_take_succ hop, DbOp.apply, DbOp.exec, hexec] at hnext
    exact hnext

/-- Where the key is enforced, every write is attached. -/
theorem attached_of_foreignKeys (ops : List DbOp) {db : DB} (h : db.foreignKeys = true) :
    Run.Along dbStep Attached db ops := by
  induction ops generalizing db with
  | nil => trivial
  | cons op ops ih =>
    refine ⟨?_, ih ((foreignKeys_apply op db).trans h)⟩
    cases op with
    | saveConnection fails conn => trivial
    | deleteConnection fails id => exact Or.inr (Or.inl h)
    | saveEndpoint fails ep => exact Or.inr (Or.inl h)
    | deleteEndpoint fails id => trivial

theorem noOrphanTools_of_postgres (pragma : Str → Bool) {dbPath : Str} (h : postgres dbPath = true)
    (ops : List DbOp) : NoOrphanTools (newDB pragma dbPath) ops := by
  rw [noOrphanTools_iff]
  refine attached_of_foreignKeys ops ?_
  rw [newDB, DB.empty, h, Bool.true_or]

def leftoverOps : List DbOp :=
  [.saveConnection false (shadowConn ['1'] []), .saveEndpoint false (shadowEndpoint ['x'] ['1'] ['a']),
    .deleteConnection false ['1']]

/-- The data source of the default configuration asks for no foreign keys. -/
theorem leftoverOps_orphan :
    ¬ NoOrphanTools (newDB (fun _ => false) "./mcp-gateway.db".toList) leftoverOps := by
  intro h
  have hmem : (newDB (fun _ => false) "./mcp-gateway.db".toList).pinned (shadowEndpoint ['x'] ['1'] ['a']) ∈
      (runOps leftoverOps (newDB (fun _ => false) "./mcp-gateway.db".toList)).endpoints :=
    List.mem_cons_self
  obtain ⟨conn, hconn, _⟩ := (h 3).1 _ hmem
  cases hconn

end Janus.Server
