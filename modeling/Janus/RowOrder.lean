import Janus.Lib.Run
import Janus.Listing

/-!
# The order of the rows

The queries behind a call name no order, and the first row of a name is taken. What a
name stands for is independent of the order exactly when the exposed names are distinct,
and a run of writes keeps them distinct exactly when no write exposes a name twice: the
unique column is the tool name without its prefix, and no write checks the exposed one.
-/

namespace Janus.Server

set_option autoImplicit false

open Storage

/-- Every order of the rows gives the same endpoint and connection for every name. -/
def OrderFree (db : DB) : Prop :=
  ∀ eps eps' conns conns', eps.Perm db.getAllEndpoints → eps'.Perm db.getAllEndpoints →
    conns.Perm db.getConnections → conns'.Perm db.getConnections →
      ∀ name, findIn conns name eps = findIn conns' name eps'

/-- The endpoint is exposed through the connection. -/
def Exposed (db : DB) (ep : APIEndpoint) (conn : APIConnection) : Prop :=
  ep ∈ db.endpoints ∧ conn ∈ db.connections ∧ conn.id = ep.connectionID ∧ conn.enabled = true

/-- Different endpoints are exposed under different names. -/
def DistinctNames (db : DB) : Prop :=
  ∀ ep conn ep' conn', Exposed db ep conn → Exposed db ep' conn' →
    resolvedName conn ep = resolvedName conn' ep' → ep = ep'

theorem map_fst_connMap (conns : List APIConnection) :
    (connMap conns).map Prod.fst = conns.map APIConnection.id := by
  simp [connMap, Function.comp_def]

theorem enabledConn_eq_some {db : DB} {ep : APIEndpoint} {conn : APIConnection} :
    enabledConn db.getConnections ep = some conn ↔
      conn ∈ db.connections ∧ conn.id = ep.connectionID ∧ conn.enabled = true := by
  have hnodup : ((connMap db.getConnections).map Prod.fst).Nodup := by
    rw [map_fst_connMap]
    exact db.connections.key_nodup
  rw [enabledConn, Option.filter_eq_some_iff, lookup_eq_some_iff hnodup, connMap, List.mem_map]
  constructor
  · rintro ⟨⟨c, hc, heq⟩, henabled⟩
    obtain ⟨hid, rfl⟩ := Prod.mk.inj heq
    exact ⟨hc, hid, henabled⟩
  · rintro ⟨hmem, hid, henabled⟩
    exact ⟨⟨conn, hmem, by rw [hid]⟩, henabled⟩

theorem enabledConn_perm {conns : List APIConnection} {db : DB} (h : conns.Perm db.getConnections)
    (ep : APIEndpoint) : enabledConn conns ep = enabledConn db.getConnections ep := by
  have hp : (connMap db.getConnections).Perm (connMap conns) := (h.map _).symm
  have hnodup : ((connMap db.getConnections).map Prod.fst).Nodup := by
    rw [map_fst_connMap]
    exact db.connections.key_nodup
  rw [enabledConn, enabledConn, lookup_perm _ hnodup hp]

theorem findIn_of_distinct {db : DB} (hd : DistinctNames db) {conns : List APIConnection}
    {eps : List APIEndpoint} (hconns : conns.Perm db.getConnections)
    (heps : eps.Perm db.getAllEndpoints) {ep : APIEndpoint} {conn : APIConnection}
    (h : Exposed db ep conn) : findIn conns (resolvedName conn ep) eps = some (ep, conn) := by
  obtain ⟨hep, hconn⟩ := h
  refine findIn_eq_some (heps.mem_iff.mpr hep) ?_ rfl ?_
  · rw [enabledConn_perm hconns]
    exact enabledConn_eq_some.mpr hconn
  · intro ep' hep' conn' hconn' hname
    rw [enabledConn_perm hconns] at hconn'
    exact hd ep' conn' ep conn ⟨heps.mem_iff.mp hep', enabledConn_eq_some.mp hconn'⟩
      ⟨hep, hconn⟩ hname

/-- What is found in some order of the rows is exposed under the name. -/
theorem exposed_of_findIn {db : DB} {conns : List APIConnection} {eps : List APIEndpoint}
    (hconns : conns.Perm db.getConnections) (heps : eps.Perm db.getAllEndpoints) {name : Str}
    {ep : APIEndpoint} {conn : APIConnection} (h : findIn conns name eps = some (ep, conn)) :
    Exposed db ep conn ∧ resolvedName conn ep = name := by
  obtain ⟨hmem, hconn, hname⟩ := findIn_found h
  rw [enabledConn_perm hconns] at hconn
  exact ⟨⟨heps.mem_iff.mp hmem, enabledConn_eq_some.mp hconn⟩, hname⟩

theorem orderFree_iff (db : DB) : OrderFree db ↔ DistinctNames db := by
  constructor
  · intro h ep conn ep' conn' hexp hexp' hname
    -- Each of the two rows can be the first one.
    have hfirst {e : APIEndpoint} {c : APIConnection} (he : Exposed db e c) :
        findIn db.getConnections (resolvedName c e) (e :: db.getAllEndpoints.erase e) = some (e, c) := by
      simp [findIn, enabledConn_eq_some.mpr he.2]
    have hperm {e : APIEndpoint} {c : APIConnection} (he : Exposed db e c) :
        (e :: db.getAllEndpoints.erase e).Perm db.getAllEndpoints :=
      (List.perm_cons_erase he.1).symm
    have hsame := h _ _ _ _ (hperm hexp) (hperm hexp') (List.Perm.refl _) (List.Perm.refl _)
      (resolvedName conn ep)
    rw [hfirst hexp, hname, hfirst hexp'] at hsame
    cases hsame
    rfl
  · intro h eps eps' conns conns' heps heps' hconns hconns' name
    cases hf : findIn conns name eps with
    | some p =>
      obtain ⟨ep, conn⟩ := p
      obtain ⟨hexp, rfl⟩ := exposed_of_findIn hconns heps hf
      exact (findIn_of_distinct h hconns' heps' hexp).symm
    | none =>
      cases hf' : findIn conns' name eps' with
      | none => rfl
      | some p =>
        obtain ⟨ep, conn⟩ := p
        obtain ⟨hexp, rfl⟩ := exposed_of_findIn hconns' heps' hf'
        rw [findIn_of_distinct h hconns heps hexp] at hf
        cases hf

/-- The write, if it succeeds, exposes no endpoint under a name that another one has. -/
def Clear (db : DB) (op : DbOp) : Prop :=
  (∃ db', op.exec db = .ok db') →
    match op with
    | .saveEndpoint _ ep => ∀ conn, conn ∈ db.connections → conn.id = ep.connectionID →
        conn.enabled = true → ∀ ep' conn', Exposed db ep' conn' → ep'.id ≠ ep.id →
          resolvedName conn' ep' ≠ resolvedName conn ep
    | .saveConnection _ conn => conn.enabled = true → ∀ ep ∈ db.endpoints,
        ep.connectionID = conn.id → ∀ ep' conn', Exposed db ep' conn' → conn'.id ≠ conn.id →
          resolvedName conn' ep' ≠ resolvedName conn ep
    | .deleteConnection _ _ => True
    | .deleteEndpoint _ _ => True

theorem distinctNames_of_exposed {db db' : DB} (hd : DistinctNames db)
    (h : ∀ ep conn, Exposed db' ep conn → Exposed db ep conn) : DistinctNames db' :=
  fun ep conn ep' conn' he he' hname => hd ep conn ep' conn' (h ep conn he) (h ep' conn' he') hname

/-- What is exposed after a save of an endpoint. -/
theorem exposed_saveEndpoint {db : DB} {ep : APIEndpoint}
    {t : Table APIEndpoint APIEndpoint.id APIEndpoint.toolName}
    (ht : db.endpoints.upsert (db.pinned ep) = some t) {e : APIEndpoint} {c : APIConnection} :
    Exposed { db with endpoints := t } e c ↔
      (e = db.pinned ep ∧ c ∈ db.connections ∧ c.id = ep.connectionID ∧ c.enabled = true) ∨
        (Exposed db e c ∧ e.id ≠ ep.id) := by
  unfold Exposed
  dsimp only
  rw [Table.mem_upsert ht]
  constructor
  · rintro ⟨rfl | ⟨he, hne⟩, hc⟩
    · exact Or.inl ⟨rfl, hc⟩
    · exact Or.inr ⟨⟨he, hc⟩, hne⟩
  · rintro (⟨rfl, hc⟩ | ⟨⟨he, hc⟩, hne⟩)
    · exact ⟨Or.inl rfl, hc⟩
    · exact ⟨Or.inr ⟨he, hne⟩, hc⟩

theorem distinctNames_saveEndpoint {db : DB} (hd : DistinctNames db) {ep : APIEndpoint}
    {t : Table APIEndpoint APIEndpoint.id APIEndpoint.toolName}
    (ht : db.endpoints.upsert (db.pinned ep) = some t) :
    DistinctNames { db with endpoints := t } ↔
      ∀ conn, conn ∈ db.connections → conn.id = ep.connectionID → conn.enabled = true →
        ∀ ep' conn', Exposed db ep' conn' → ep'.id ≠ ep.id →
          resolvedName conn' ep' ≠ resolvedName conn ep := by
  constructor
  · intro h conn hconn hid henabled ep' conn' hexp hne hname
    have hnew := exposed_saveEndpoint (e := db.pinned ep) ht |>.mpr
      (Or.inl ⟨rfl, hconn, hid, henabled⟩)
    have hold := exposed_saveEndpoint ht |>.mpr (Or.inr ⟨hexp, hne⟩)
    have hsame := h ep' conn' (db.pinned ep) conn hold hnew hname
    exact hne (by rw [hsame]; rfl)
  · intro h e c e' c' he he' hname
    rcases (exposed_saveEndpoint ht).mp he with ⟨rfl, hc, hid, hen⟩ | ⟨hexp, hne⟩
    · rcases (exposed_saveEndpoint ht).mp he' with ⟨rfl, _⟩ | ⟨hexp', hne'⟩
      · rfl
      · exact absurd hname.symm (h c hc hid hen e' c' hexp' hne')
    · rcases (exposed_saveEndpoint ht).mp he' with ⟨rfl, hc', hid', hen'⟩ | ⟨hexp', _⟩
      · exact absurd hname (h c' hc' hid' hen' e c hexp hne)
      · exact hd e c e' c' hexp hexp' hname

/-- What is exposed after a save of a connection. -/
theorem exposed_saveConnection {db : DB} {conn : APIConnection}
    {t : Table APIConnection APIConnection.id APIConnection.name}
    (ht : db.connections.upsert conn = some t) {e : APIEndpoint} {c : APIConnection} :
    Exposed { db with connections := t } e c ↔
      (c = conn ∧ e ∈ db.endpoints ∧ e.connectionID = conn.id ∧ conn.enabled = true) ∨
        (Exposed db e c ∧ c.id ≠ conn.id) := by
  unfold Exposed
  dsimp only
  rw [Table.mem_upsert ht]
  constructor
  · rintro ⟨he, rfl | ⟨hc, hne⟩, hid, hen⟩
    · exact Or.inl ⟨rfl, he, hid.symm, hen⟩
    · exact Or.inr ⟨⟨he, hc, hid, hen⟩, hne⟩
  · rintro (⟨rfl, he, hid, hen⟩ | ⟨⟨he, hc, hid, hen⟩, hne⟩)
    · exact ⟨he, Or.inl rfl, hid.symm, hen⟩
    · exact ⟨he, Or.inr ⟨hc, hne⟩, hid, hen⟩

theorem distinctNames_saveConnection {db : DB} (hd : DistinctNames db) {conn : APIConnection}
    {t : Table APIConnection APIConnection.id APIConnection.name}
    (ht : db.connections.upsert conn = some t) :
    DistinctNames { db with connections := t } ↔
      (conn.enabled = true → ∀ ep ∈ db.endpoints, ep.connectionID = conn.id →
        ∀ ep' conn', Exposed db ep' conn' → conn'.id ≠ conn.id →
          resolvedName conn' ep' ≠ resolvedName conn ep) := by
  constructor
  · intro h hen ep hep hid ep' conn' hexp hne hname
    have hnew := exposed_saveConnection ht |>.mpr (Or.inl ⟨rfl, hep, hid, hen⟩)
    have hold := exposed_saveConnection ht |>.mpr (Or.inr ⟨hexp, hne⟩)
    have hsame := h ep' conn' ep conn hold hnew hname
    rw [hsame] at hexp
    exact hne (hexp.2.2.1.trans hid)
  · intro h e c e' c' he he' hname
    rcases (exposed_saveConnection ht).mp he with ⟨rfl, hmem, hid, hen⟩ | ⟨hexp, hne⟩
    · rcases (exposed_saveConnection ht).mp he' with ⟨rfl, hmem', _, _⟩ | ⟨hexp', hne'⟩
      · -- Both are on the saved connection, so their tool names are the same.
        rw [resolvedName_eq, resolvedName_eq] at hname
        exact Table.eq_of_uniq_eq hmem hmem' (List.append_cancel_left hname)
      · exact absurd hname.symm (h hen e hmem hid e' c' hexp' hne')
    · rcases (exposed_saveConnection ht).mp he' with ⟨rfl, hmem', hid', hen'⟩ | ⟨hexp', _⟩
      · exact absurd hname (h hen' e' hmem' hid' e c hexp hne)
      · exact hd e c e' c' hexp hexp' hname

/-- A write keeps the exposed names distinct exactly when it is clear. -/
theorem distinctNames_apply_iff {db : DB} (hd : DistinctNames db) (op : DbOp) :
    DistinctNames (op.apply db) ↔ Clear db op := by
  unfold DbOp.apply Clear
  cases hexec : op.exec db with
  | error e => simp [hd]
  | ok db' =>
    have hok : ∃ d, Except.ok (ε := StoreError) db' = .ok d := ⟨db', rfl⟩
    rw [forall_prop_of_true hok]
    cases op with
    | saveConnection fails conn =>
      obtain ⟨_, t, ht, rfl⟩ := DB.saveConnection_ok hexec
      exact distinctNames_saveConnection hd ht
    | deleteConnection fails id =>
      refine iff_of_true (distinctNames_of_exposed hd ?_) trivial
      rintro ep conn ⟨hep, hconn, hrest⟩
      obtain ⟨hconns, heps⟩ := DB.deleteConnection_ok hexec
      rw [hconns] at hconn
      exact ⟨heps ep hep, (Table.mem_delete.mp hconn).1, hrest⟩
    | saveEndpoint fails ep =>
      obtain ⟨_, t, ht, rfl⟩ := DB.saveEndpoint_ok hexec
      exact distinctNames_saveEndpoint hd ht
    | deleteEndpoint fails id =>
      refine iff_of_true (distinctNames_of_exposed hd ?_) trivial
      rintro ep conn ⟨hep, hrest⟩
      rw [DB.deleteEndpoint_ok hexec] at hep hrest
      exact ⟨(Table.mem_delete.mp hep).1, hrest⟩

def dbStep (db : DB) (op : DbOp) : DB × List Unit := (op.apply db, [])

theorem final_dbStep (ops : List DbOp) (db : DB) : Run.final dbStep db ops = runOps ops db := by
  induction ops generalizing db with
  | nil => rfl
  | cons op ops ih => exact ih (op.apply db)

/-- In a run of writes on an empty database, no name depends on the order of the rows at
any point of the run exactly when every write of it is clear. -/
theorem orderFree_run_iff (foreignKeys : Bool) (ops : List DbOp) :
    (∀ n, OrderFree (runOps (ops.take n) (.empty foreignKeys))) ↔
      Run.Along dbStep Clear (.empty foreignKeys) ops := by
  have hempty : DistinctNames (.empty foreignKeys) := by
    rintro ep conn ep' conn' ⟨hep, _⟩
    cases hep
  have hstep : ∀ db op, DistinctNames db → (DistinctNames (dbStep db op).1 ↔ Clear db op) :=
    fun db op hd => distinctNames_apply_iff hd op
  rw [← Run.along_iff_inv hstep ops _ hempty]
  constructor
  · intro h n
    rw [final_dbStep]
    exact (orderFree_iff _).mp (h n)
  · intro h n
    rw [← final_dbStep]
    exact (orderFree_iff _).mpr (h n)

/-- Tool `ab` without a prefix, and then tool `b` behind the prefix `a`. -/
def clashOps : List DbOp :=
  [.saveConnection false (shadowConn ['1'] []), .saveConnection false (shadowConn ['2'] ['a']),
    .saveEndpoint false (shadowEndpoint ['x'] ['1'] ['a', 'b']),
    .saveEndpoint false (shadowEndpoint ['y'] ['2'] ['b'])]

theorem findIn_clashOps :
    findIn (runOps clashOps (.empty false)).getConnections ['a', 'b']
        (runOps clashOps (.empty false)).getAllEndpoints ≠
      findIn (runOps clashOps (.empty false)).getConnections ['a', 'b']
        (runOps clashOps (.empty false)).getAllEndpoints.reverse := by
  decide +kernel

/-- The name `ab` stands for whichever row comes first. -/
theorem clashOps_not_orderFree : ¬ OrderFree (runOps clashOps (.empty false)) := by
  intro h
  exact findIn_clashOps (h _ _ _ _ (List.Perm.refl _) (List.reverse_perm _) (List.Perm.refl _)
    (List.Perm.refl _) ['a', 'b'])

end Janus.Server
