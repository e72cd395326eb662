import Janus.Pinning

/-!
# Versions of an endpoint

A save writes the hash of the definition and counts the version up when the hash is not
the stored one. Over a run of writes that never deletes the row, the version counts the
successful saves at which the hash changed.
-/

namespace Janus.Server

set_option autoImplicit false

open Storage

/-- The hash that a save of the row stores. -/
def savedHash (ep : APIEndpoint) : Str := ToolIntegrity.hash (DB.savedToolDef ep)

/-- The write is a save of the row and succeeds. -/
def savesRow (id : Str) (db : DB) : DbOp → Option APIEndpoint
  | .saveEndpoint fails ep =>
    if ep.id = id then (db.saveEndpoint fails ep).toOption.map fun _ => ep else none
  | _ => none

/-- The successful saves of a row, in their order. -/
def saves (id : Str) : DB → List DbOp → List APIEndpoint
  | _, [] => []
  | db, op :: ops => (savesRow id db op).toList ++ saves id (op.apply db) ops

/-- How often neighbours differ. -/
def changes : List Str → Nat
  | [] => 0
  | [_] => 0
  | x :: y :: rest => (if x ≠ y then 1 else 0) + changes (y :: rest)

/-- The write does not delete the row, neither itself nor with its connection. -/
def SparesRow (foreignKeys : Bool) (id : Str) : DbOp → Prop
  | .deleteEndpoint _ id' => id' ≠ id
  | .deleteConnection _ _ => foreignKeys = false
  | _ => True

theorem changes_concat (hs : List Str) (h : Str) :
    changes (hs ++ [h]) = changes hs + if hs.getLast?.any (· ≠ h) then 1 else 0 := by
  induction hs with
  | nil => rfl
  | cons x hs ih =>
    cases hs with
    | nil => simp [changes]
    | cons y rest =>
      simp only [List.cons_append, changes] at ih ⊢
      rw [ih, List.getLast?_cons_cons]
      omega

/-- What the saves so far say about the stored row. -/
def RowAfter (id : Str) (db : DB) (past : List APIEndpoint) : Prop :=
  match db.endpoints.find id with
  | none => past = []
  | some row =>
    (past.map savedHash).getLast? = some row.definitionHash ∧ row.definitionHash = savedHash row ∧
      row.version = 1 + changes (past.map savedHash)

theorem rowAfter_of_find_eq {id : Str} {db db' : DB} {past : List APIEndpoint}
    (h : RowAfter id db past) (hfind : db'.endpoints.find id = db.endpoints.find id) :
    RowAfter id db' past := by
  unfold RowAfter at h ⊢
  rw [hfind]
  exact h

/-- The row that a successful save leaves behind. -/
theorem rowAfter_save {id : Str} {db : DB} {past : List APIEndpoint} {ep : APIEndpoint}
    {t : Table APIEndpoint APIEndpoint.id APIEndpoint.toolName} (h : RowAfter id db past)
    (hid : ep.id = id) (ht : db.endpoints.upsert (db.pinned ep) = some t) :
    RowAfter id { db with endpoints := t } (past ++ [ep]) := by
  have hfind := Table.find_upsert ht id
  rw [if_pos (show (db.pinned ep).id = id from hid)] at hfind
  unfold RowAfter at h ⊢
  dsimp only
  rw [hfind, List.map_append]
  refine ⟨by simp [DB.pinned, savedHash], rfl, ?_⟩
  have hconcat := changes_concat (past.map savedHash) (savedHash ep)
  rw [List.map_cons, List.map_nil, hconcat]
  subst hid
  cases hold : db.endpoints.find ep.id with
  | none =>
    rw [hold] at h
    dsimp only at h
    subst h
    simp only [DB.pinned, hold, List.map_nil, changes, List.getLast?_nil, Option.any_none]
    rfl
  | some row =>
    rw [hold] at h
    obtain ⟨hlast, _, hversion⟩ := h
    have hnew : ToolIntegrity.hash (DB.savedToolDef ep) = savedHash ep := rfl
    simp only [DB.pinned, hold, hnew, hlast, Option.any_some, hversion, decide_eq_true_eq]
    by_cases hne : row.definitionHash ≠ savedHash ep
    · rw [if_pos hne, if_pos hne]
      omega
    · rw [if_neg hne, if_neg hne, Nat.add_zero]

/-- One write keeps what the saves say about the row. -/
theorem rowAfter_apply {id : Str} {db : DB} {past : List APIEndpoint} {op : DbOp}
    (h : RowAfter id db past) (hop : SparesRow db.foreignKeys id op) :
    RowAfter id (op.apply db) (past ++ (savesRow id db op).toList) := by
  unfold DbOp.apply
  split
  · rename_i db' hexec
    cases op with
    | saveConnection fails conn =>
      obtain ⟨_, t, _, rfl⟩ := DB.saveConnection_ok hexec
      simp only [savesRow, Option.toList_none, List.append_nil]
      exact h
    | deleteConnection fails cid =>
      have hfk : db.foreignKeys = false := hop
      simp only [DbOp.exec, DB.deleteConnection, hfk] at hexec
      simp only [savesRow, Option.toList_none, List.append_nil]
      split at hexec
      · cases hexec
      · cases hexec
        exact h
    | saveEndpoint fails ep =>
      have hsaved : (db.saveEndpoint fails ep).toOption = some db' := by
        rw [show db.saveEndpoint fails ep = .ok db' from hexec]
        rfl
      obtain ⟨_, t, ht, rfl⟩ := DB.saveEndpoint_ok hexec
      by_cases hid : ep.id = id
      · simp only [savesRow, if_pos hid, hsaved, Option.map_some, Option.toList_some]
        exact rowAfter_save h hid ht
      · simp only [savesRow, if_neg hid, Option.toList_none, List.append_nil]
        refine rowAfter_of_find_eq h ?_
        have hfind := Table.find_upsert ht id
        rwa [if_neg (show (db.pinned ep).id ≠ id from hid)] at hfind
    | deleteEndpoint fails eid =>
      rw [DB.deleteEndpoint_ok hexec]
      simp only [savesRow, Option.toList_none, List.append_nil]
      exact rowAfter_of_find_eq h (Table.find_delete_of_ne hop)
  · rename_i e hexec
    have hnone : savesRow id db op = none := by
      cases op with
      | saveEndpoint fails ep =>
        have hfailed : (db.saveEndpoint fails ep).toOption = none := by
          rw [show db.saveEndpoint fails ep = .error e from hexec]
          rfl
        simp only [savesRow, hfailed, Option.map_none, ite_self]
      | _ => rfl
    rw [hnone, Option.toList_none, List.append_nil]
    exact h

theorem rowAfter_runOps {id : Str} {ops : List DbOp} {db : DB} {past : List APIEndpoint}
    (h : RowAfter id db past) (hops : ∀ op ∈ ops, SparesRow db.foreignKeys id op) :
    RowAfter id (runOps ops db) (past ++ saves id db ops) := by
  induction ops generalizing db past with
  | nil =>
    rw [saves, List.append_nil]
    exact h
  | cons op ops ih =>
    rw [saves, ← List.append_assoc]
    refine ih (rowAfter_apply h (hops op List.mem_cons_self)) ?_
    intro op' hop'
    rw [foreignKeys_apply]
    exact hops op' (List.mem_cons_of_mem op hop')

/-- After every run of writes that spares the row: the stored row has the hash of its own
definition and a version that is one more than the number of its successful saves whose
hash differed from that of the save before; there is a row exactly when one of its saves
succeeded. A save that fails leaves the table as it is. -/
theorem version_counts_changes (foreignKeys : Bool) (id : Str) (ops : List DbOp)
    (hops : ∀ op ∈ ops, SparesRow foreignKeys id op) :
    (∀ row, (runOps ops (.empty foreignKeys)).endpoints.find id = some row →
        row.definitionHash = savedHash row ∧
          row.version = 1 + changes ((saves id (.empty foreignKeys) ops).map savedHash)) ∧
      ((runOps ops (.empty foreignKeys)).endpoints.find id = none ↔
        saves id (.empty foreignKeys) ops = []) ∧
      ∀ fails ep e, (runOps ops (.empty foreignKeys)).saveEndpoint fails ep = .error e →
        DbOp.apply (runOps ops (.empty foreignKeys)) (.saveEndpoint fails ep) =
          runOps ops (.empty foreignKeys) := by
  have hempty : RowAfter id (.empty foreignKeys) [] := rfl
  have hrow := rowAfter_runOps hempty hops
  rw [List.nil_append] at hrow
  unfold RowAfter at hrow
  refine ⟨?_, ?_, ?_⟩
  · intro row hfind
    rw [hfind] at hrow
    exact hrow.2
  · cases hfind : (runOps ops (.empty foreignKeys)).endpoints.find id with
    | none =>
      rw [hfind] at hrow
      exact iff_of_true rfl hrow
    | some row =>
      rw [hfind] at hrow
      refine iff_of_false (by simp) ?_
      intro hnil
      rw [hnil] at hrow
      cases hrow.1
  · intro fails ep e h
    simp only [DbOp.apply, DbOp.exec, h]

/-- A tool at the given path. -/
def versionEndpoint (path : Str) : APIEndpoint :=
  ⟨['e'], ['c'], ['t'], [], path, "GET".toList, [], [], [], 0⟩

/-- A save, one that the store refuses, and one with another path. -/
def versionOps : List DbOp :=
  [.saveEndpoint false (versionEndpoint ['/']), .saveEndpoint true (versionEndpoint ['/', 'a']),
    .saveEndpoint false (versionEndpoint ['/', 'b'])]

theorem changes_versionOps :
    changes ((saves ['e'] (.empty false) versionOps).map savedHash) = 1 := by
  decide +kernel

theorem version_versionOps :
    ∃ row, (runOps versionOps (.empty false)).endpoints.find ['e'] = some row ∧ row.version = 2 := by
  have hops : ∀ op ∈ versionOps, SparesRow false ['e'] op := by
    simp [versionOps, SparesRow]
  obtain ⟨hrows, hnone, _⟩ := version_counts_changes false ['e'] versionOps hops
  cases hfind : (runOps versionOps (.empty false)).endpoints.find ['e'] with
  | none =>
    have hchanges := changes_versionOps
    rw [hnone.mp hfind] at hchanges
    cases hchanges
  | some row =>
    refine ⟨row, rfl, ?_⟩
    rw [(hrows row hfind).2, changes_versionOps]

end Janus.Server
