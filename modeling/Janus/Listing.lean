import Janus.Pinning

/-!
# Listed tools and what a call of them reaches

The listing walks over the endpoint rows, a call looks for the first row of its name
and sends every name with the reserved prefix to the admin tools. A listed entry is
reached under its own name unless its name is reserved or an earlier row has taken it.
-/

namespace Janus.Server

set_option autoImplicit false

open Storage

/-- A call of the entry passes the gates and is routed to what the entry was made from. -/
def CallableAsListed (db : DB) (role : Str) (scopes : List Str) (e : Entry) : Prop :=
  gate role scopes e.tool.name = none ∧ dispatch noFaults e.tool.name db = .ok e.origin

/-- An endpoint row before this one, on an enabled connection, is exposed under the name. -/
def Shadowed (db : DB) (ep : APIEndpoint) (name : Str) : Prop :=
  ∃ before after, db.getAllEndpoints = before ++ ep :: after ∧
    ∃ ep' ∈ before, ∃ conn', enabledConn db.getConnections ep' = some conn' ∧
      resolvedName conn' ep' = name

theorem findIn_append (conns : List APIConnection) (name : Str) (xs ys : List APIEndpoint) :
    findIn conns name (xs ++ ys) = (findIn conns name xs).or (findIn conns name ys) := by
  induction xs with
  | nil => rfl
  | cons x xs ih =>
    simp only [List.cons_append, findIn, ih]
    cases enabledConn conns x with
    | none => rfl
    | some c =>
      by_cases hn : resolvedName c x = name
      · simp [hn]
      · simp [hn]

theorem findIn_eq_none {conns : List APIConnection} {name : Str} {eps : List APIEndpoint} :
    findIn conns name eps = none ↔
      ∀ ep ∈ eps, ∀ conn, enabledConn conns ep = some conn → resolvedName conn ep ≠ name := by
  induction eps with
  | nil => simp [findIn]
  | cons e eps ih =>
    simp only [findIn, List.forall_mem_cons]
    cases hc : enabledConn conns e with
    | none => simp [ih]
    | some c =>
      by_cases hn : resolvedName c e = name
      · simp [hn]
      · simp [hn, ih]

/-- What is found is a row on an enabled connection that is exposed under the name. -/
theorem findIn_found {conns : List APIConnection} {name : Str} {eps : List APIEndpoint}
    {ep : APIEndpoint} {conn : APIConnection} (h : findIn conns name eps = some (ep, conn)) :
    ep ∈ eps ∧ enabledConn conns ep = some conn ∧ resolvedName conn ep = name := by
  induction eps with
  | nil => cases h
  | cons e eps ih =>
    simp only [findIn] at h
    split at h
    · obtain ⟨hmem, hrest⟩ := ih h
      exact ⟨List.mem_cons_of_mem e hmem, hrest⟩
    · rename_i c hc
      split at h
      · rename_i hn
        cases h
        exact ⟨List.mem_cons_self, hc, hn⟩
      · obtain ⟨hmem, hrest⟩ := ih h
        exact ⟨List.mem_cons_of_mem e hmem, hrest⟩

theorem findIn_eq_some_iff {db : DB} {ep : APIEndpoint} {conn : APIConnection}
    (hmem : ep ∈ db.getAllEndpoints) (hconn : enabledConn db.getConnections ep = some conn) :
    findIn db.getConnections (resolvedName conn ep) db.getAllEndpoints = some (ep, conn) ↔
      ¬ Shadowed db ep (resolvedName conn ep) := by
  have hnodup : db.getAllEndpoints.Nodup := db.endpoints.key_nodup.of_map
  have hself : ∀ after, findIn db.getConnections (resolvedName conn ep) (ep :: after) = some (ep, conn) := by
    intro after
    simp [findIn, hconn]
  constructor
  · intro h hs
    obtain ⟨before, after, hrows, ep', hep', conn', hc', hn'⟩ := hs
    rw [hrows, findIn_append, hself after] at h
    have hnot : ep ∉ before := by
      rw [hrows, List.nodup_append] at hnodup
      intro hb
      exact hnodup.2.2 ep hb ep List.mem_cons_self rfl
    cases hb : findIn db.getConnections (resolvedName conn ep) before with
    | none => exact findIn_eq_none.mp hb ep' hep' conn' hc' hn'
    | some r =>
      rw [hb] at h
      cases h
      exact hnot (findIn_found hb).1
  · intro hs
    obtain ⟨before, after, hrows⟩ := List.append_of_mem hmem
    have hb : findIn db.getConnections (resolvedName conn ep) before = none := by
      rw [findIn_eq_none]
      intro ep' hep' conn' hc' hn'
      exact hs ⟨before, after, hrows, ep', hep', conn', hc', hn'⟩
    rw [hrows, findIn_append, hb, hself after]
    rfl

/-- An entry is an admin tool offered to an admin, or an endpoint on an enabled connection
under its resolved name; either way its name is in scope. -/
theorem mem_listEntries {faults : ReadFaults} {role : Str} {scopes : List Str} {db : DB}
    {es : List Entry} (h : listEntries faults role scopes db = .ok es) {e : Entry} (he : e ∈ es) :
    matchScope e.tool.name scopes = true ∧
      ((∃ t, role = "admin".toList ∧ e = ⟨t.tool, .admin t⟩) ∨
        ∃ ep conn, ep ∈ db.getAllEndpoints ∧ enabledConn db.getConnections ep = some conn ∧
          e = ⟨endpointTool ep conn, .endpoint ep conn⟩) := by
  unfold listEntries at h
  split at h
  · cases h
  · cases h
  · cases h
    rcases List.mem_append.mp he with he | he
    · obtain ⟨ep, hep, hsome⟩ := List.mem_filterMap.mp he
      cases hc : enabledConn db.getConnections ep with
      | none => simp [hc] at hsome
      | some conn =>
        simp only [hc] at hsome
        split at hsome
        · rename_i hm
          cases hsome
          exact ⟨hm, Or.inr ⟨ep, conn, hep, hc, rfl⟩⟩
        · cases hsome
    · unfold adminEntries at he
      split at he
      · rename_i hrole
        obtain ⟨t, _, hsome⟩ := List.mem_filterMap.mp he
        split at hsome
        · rename_i hm
          cases hsome
          refine ⟨?_, Or.inl ⟨t, hrole, rfl⟩⟩
          cases t <;> exact hm
        · cases hsome
      · cases he

theorem gate_eq_none_iff {role : Str} {scopes : List Str} {name : Str} :
    gate role scopes name = none ↔
      (Text.hasPrefix name adminPrefix = true → role = "admin".toList) ∧
        matchScope name scopes = true := by
  unfold gate
  generalize "admin".toList = admin
  cases Text.hasPrefix name adminPrefix <;> cases matchScope name scopes <;>
    by_cases hr : role = admin <;> simp [hr]

theorem name_tool (t : AdminTool) : t.tool.name = t.name := by
  cases t <;> rfl

/-- An entry of the listing is callable as listed exactly when it is a built-in admin tool,
or an endpoint whose name is not reserved and not taken by an earlier row. -/
theorem callableAsListed_iff (faults : ReadFaults) (role : Str) (scopes : List Str) (db : DB)
    (es : List Entry) (h : listEntries faults role scopes db = .ok es) (e : Entry) (he : e ∈ es) :
    CallableAsListed db role scopes e ↔
      (∃ t, e.origin = .admin t) ∨
        (Text.hasPrefix e.tool.name adminPrefix = false ∧
          ∀ ep conn, e.origin = .endpoint ep conn → ¬ Shadowed db ep e.tool.name) := by
  obtain ⟨hm, hfrom⟩ := mem_listEntries h he
  unfold CallableAsListed
  rw [gate_eq_none_iff]
  rcases hfrom with ⟨t, hrole, rfl⟩ | ⟨ep, conn, hep, hconn, rfl⟩
  · constructor
    · intro _
      exact Or.inl ⟨t, rfl⟩
    · intro _
      exact ⟨⟨fun _ => hrole, hm⟩, by rw [name_tool]; exact dispatch_admin noFaults t db⟩
  · have hname : (endpointTool ep conn).name = resolvedName conn ep := rfl
    have hiff := findIn_eq_some_iff hep hconn
    by_cases hp : Text.hasPrefix (resolvedName conn ep) adminPrefix = true
    · constructor
      · rintro ⟨_, hd⟩
        simp only [dispatch, hname, hp, if_true] at hd
        split at hd <;> cases hd
      · rintro (⟨t, ht⟩ | ⟨hnp, _⟩)
        · cases ht
        · rw [hname, hp] at hnp
          cases hnp
    · have hp' : Text.hasPrefix (resolvedName conn ep) adminPrefix = false := by simpa using hp
      have hd : dispatch noFaults (resolvedName conn ep) db = .ok (.endpoint ep conn) ↔
          findIn db.getConnections (resolvedName conn ep) db.getAllEndpoints = some (ep, conn) := by
        simp only [dispatch, hp', Bool.false_eq_true, if_false, findEndpoint, noFaults]
        cases findIn db.getConnections (resolvedName conn ep) db.getAllEndpoints with
        | none => simp
        | some r => simp [Prod.ext_iff]
      constructor
      · rintro ⟨_, hdis⟩
        refine Or.inr ⟨hp', ?_⟩
        intro ep₁ conn₁ ho
        cases ho
        exact hiff.mp (hd.mp hdis)
      · rintro (⟨t, ht⟩ | ⟨_, hs⟩)
        · cases ht
        · refine ⟨⟨fun hpre => absurd hpre hp, hm⟩, hd.mpr (hiff.mpr (hs ep conn rfl))⟩

def shadowConn (id toolPrefix : Str) : APIConnection :=
  ⟨id, id, [], "http://h".toList, "none".toList, [], true, toolPrefix⟩

def shadowEndpoint (id connectionID toolName : Str) : APIEndpoint :=
  ⟨id, connectionID, toolName, [], ['/'], "GET".toList, [], [], [], 0⟩

/-- Tool `ab` without a prefix, and tool `b` behind the prefix `a`. -/
def shadowDB : DB where
  foreignKeys := false
  connections := ⟨[shadowConn ['1'] [], shadowConn ['2'] ['a']], by decide, by decide⟩
  endpoints := ⟨[shadowEndpoint ['x'] ['1'] ['a', 'b'], shadowEndpoint ['y'] ['2'] ['b']],
    by decide, by decide⟩
  tokens := .empty

def shadowedEntry : Entry :=
  ⟨endpointTool (shadowEndpoint ['y'] ['2'] ['b']) (shadowConn ['2'] ['a']),
    .endpoint (shadowEndpoint ['y'] ['2'] ['b']) (shadowConn ['2'] ['a'])⟩

def shadowList : List Entry :=
  [⟨endpointTool (shadowEndpoint ['x'] ['1'] ['a', 'b']) (shadowConn ['1'] []),
    .endpoint (shadowEndpoint ['x'] ['1'] ['a', 'b']) (shadowConn ['1'] [])⟩, shadowedEntry]

theorem listEntries_shadowDB : listEntries noFaults ['u'] [['*']] shadowDB = .ok shadowList := rfl

theorem dispatch_shadowedEntry :
    dispatch noFaults shadowedEntry.tool.name shadowDB ≠ .ok shadowedEntry.origin := by
  have hd : dispatch noFaults shadowedEntry.tool.name shadowDB =
      .ok (.endpoint (shadowEndpoint ['x'] ['1'] ['a', 'b']) (shadowConn ['1'] [])) := rfl
  intro h
  have hne := hd.symm.trans h
  revert hne
  decide

/-- The second entry is listed, and its call runs the first endpoint. -/
theorem shadowed_not_callable :
    listEntries noFaults ['u'] [['*']] shadowDB = .ok shadowList ∧ shadowedEntry ∈ shadowList ∧
      ¬ CallableAsListed shadowDB ['u'] [['*']] shadowedEntry := by
  refine ⟨listEntries_shadowDB, by simp [shadowList], ?_⟩
  intro h
  exact dispatch_shadowedEntry h.2

theorem shadowedEntry_shadowed :
    ¬ ((∃ t, shadowedEntry.origin = .admin t) ∨
      (Text.hasPrefix shadowedEntry.tool.name adminPrefix = false ∧
        ∀ ep conn, shadowedEntry.origin = .endpoint ep conn →
          ¬ Shadowed shadowDB ep shadowedEntry.tool.name)) := by
  intro h
  have hc := (callableAsListed_iff noFaults ['u'] [['*']] shadowDB shadowList listEntries_shadowDB
    shadowedEntry (by simp [shadowList])).mpr h
  exact dispatch_shadowedEntry hc.2

end Janus.Server
