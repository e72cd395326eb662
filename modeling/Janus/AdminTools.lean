import Janus.Transport

/-!
# What the admin tools store

The arguments of every call are redacted before the tool runs, and the admin tools
persist theirs. What they store is therefore what was sent only where the redactor
leaves the stored texts as they are.
-/

namespace Janus.Redaction

set_option autoImplicit false

/-- A member of a redacted map is the redacted member of the map; the counts on the way
differ. -/
theorem lookup_redactMembers (r : Redactor) (k : Str) (ms : List (Str × Json))
    (counts : List (Str × Nat)) :
    ∃ counts', lookup k (r.redactMembers ms counts).1 =
      (lookup k ms).map fun v => (r.redactValue v counts').1 := by
  induction ms generalizing counts with
  | nil => exact ⟨counts, rfl⟩
  | cons m ms ih =>
    obtain ⟨k', x⟩ := m
    obtain ⟨counts', hc⟩ := ih (r.redactValue x counts).2
    simp only [Redactor.redactMembers, lookup, hc]
    cases lookup k ms with
    | some v => exact ⟨counts', by simp⟩
    | none =>
      refine ⟨counts, ?_⟩
      by_cases hk : k' = k
      · simp [hk]
      · simp [hk]

/-- The strings of a redacted map are the redacted strings of the map. -/
theorem lookup_redactMap_str (r : Redactor) (k t : Str) (ms : List (Str × Json)) :
    lookup k (r.redactMap ms).1 = some (.str t) ↔
      ∃ s, lookup k ms = some (.str s) ∧ (r.redactBytes s).1 = t := by
  obtain ⟨counts', hc⟩ := lookup_redactMembers r k ms []
  simp only [Redactor.redactMap, hc]
  cases lookup k ms with
  | none => simp
  | some v => cases v <;> simp [Redactor.redactValue]

end Janus.Redaction

namespace Janus.Server

open Storage Gateway Redaction

/-- The text that the tool gets where a text was sent. -/
def masked (redactor : Option Redactor) (s : Str) : Str := (redactResult redactor s).1

theorem lookup_redactArgs_str (redactor : Option Redactor) (args : Option Params) (k t : Str) :
    lookup k ((redactArgs redactor args).1.getD []) = some (.str t) ↔
      ∃ s, lookup k (args.getD []) = some (.str s) ∧ masked redactor s = t := by
  cases redactor with
  | none => simp [redactArgs, masked, redactResult]
  | some r =>
    cases args with
    | none => simp [redactArgs, lookup]
    | some ms =>
      cases ms with
      | nil => simp [redactArgs, lookup]
      | cons m ms => exact lookup_redactMap_str r k t (m :: ms)

theorem bind_eq_ok {ε α β : Type} {x : Except ε α} {f : α → Except ε β} {b : β} :
    (x >>= f) = .ok b ↔ ∃ a, x = .ok a ∧ f a = .ok b := by
  cases x <;> simp [bind, Except.bind]

theorem requireStringArg_ok {tool : AdminTool} {args : Params} {key : String} {v : Str}
    (h : requireStringArg tool args key = .ok v) : lookup key.toList args = some (.str v) := by
  unfold requireStringArg at h
  split at h
  · split at h
    · cases h
    · cases h
      assumption
  · cases h

theorem requireStringArg_eq {tool : AdminTool} {args : Params} {key : String} {v s : Str}
    (h : requireStringArg tool args key = .ok v) (hs : lookup key.toList args = some (.str s)) :
    v = s := by
  have hv := requireStringArg_ok h
  rw [hs] at hv
  cases hv
  rfl

theorem optionalStringArg_of_lookup {args : Params} {key : String} {v : Str}
    (h : lookup key.toList args = some (.str v)) : optionalStringArg args key = v := by
  simp [optionalStringArg, h]

/-- The string arguments of `admin_add_connection` and the fields they go to. -/
def connectionStrings : List (String × (APIConnection → Str)) :=
  [("name", APIConnection.name), ("base_url", APIConnection.baseURL),
    ("auth_type", APIConnection.authType), ("auth_secret_ref", APIConnection.authSecretRef),
    ("tool_prefix", APIConnection.toolPrefix)]

/-- The string arguments of `admin_add_endpoint` and the fields they go to. -/
def endpointStrings : List (String × (APIEndpoint → Str)) :=
  [("connection_id", APIEndpoint.connectionID), ("tool_name", APIEndpoint.toolName),
    ("tool_description", APIEndpoint.toolDescription), ("path", APIEndpoint.path),
    ("method", APIEndpoint.method), ("parameters_schema", APIEndpoint.parametersSchema),
    ("template", APIEndpoint.template)]

/-- Every string argument of the list is the text of its field. -/
def HoldsStrings {ρ : Type} (strings : List (String × (ρ → Str))) (args : Params) (row : ρ) : Prop :=
  ∀ f ∈ strings, ∀ s, lookup f.1.toList args = some (.str s) → f.2 row = s

/-- The redactor leaves every string argument of the list as it is. -/
def LeavesStrings {ρ : Type} (redactor : Option Redactor) (strings : List (String × (ρ → Str)))
    (args : Params) : Prop :=
  ∀ f ∈ strings, ∀ s, lookup f.1.toList args = some (.str s) → masked redactor s = s

/-- A row made from redacted arguments holds the arguments that were sent exactly when the
redactor left them as they are. -/
theorem holdsStrings_iff {ρ : Type} {strings : List (String × (ρ → Str))} {redactor : Option Redactor}
    {args : Option Params} {row : ρ}
    (h : HoldsStrings strings ((redactArgs redactor args).1.getD []) row) :
    HoldsStrings strings (args.getD []) row ↔ LeavesStrings redactor strings (args.getD []) := by
  have hmask : ∀ f ∈ strings, ∀ s, lookup f.1.toList (args.getD []) = some (.str s) →
      f.2 row = masked redactor s := by
    intro f hf s hs
    exact h f hf _ ((lookup_redactArgs_str redactor args f.1.toList _).mpr ⟨s, hs, rfl⟩)
  constructor
  · intro hrow f hf s hs
    rw [← hmask f hf s hs]
    exact hrow f hf s hs
  · intro hleaves f hf s hs
    rw [hmask f hf s hs]
    exact hleaves f hf s hs

theorem connectionArg_ok {env : Env} {args : Params} {conn : APIConnection}
    (h : connectionArg env args = .ok conn) :
    conn.id = env.rowID ∧ HoldsStrings connectionStrings args conn := by
  simp only [connectionArg, bind_eq_ok] at h
  obtain ⟨name, hname, baseURL, hurl, authType, htype, hconn⟩ := h
  cases hconn
  refine ⟨rfl, ?_⟩
  simp only [HoldsStrings, connectionStrings, List.forall_mem_cons]
  refine ⟨?_, ?_, ?_, ?_, ?_, by simp⟩
  · exact fun s hs => requireStringArg_eq hname hs
  · exact fun s hs => requireStringArg_eq hurl hs
  · exact fun s hs => requireStringArg_eq htype hs
  · exact fun s hs => optionalStringArg_of_lookup hs
  · exact fun s hs => optionalStringArg_of_lookup hs

theorem endpointArg_ok {env : Env} {args : Params} {ep : APIEndpoint}
    (h : endpointArg env args = .ok ep) :
    ep.id = env.rowID ∧ HoldsStrings endpointStrings args ep := by
  simp only [endpointArg, bind_eq_ok] at h
  obtain ⟨connectionID, hconn, toolName, hname, toolDescription, hdesc, path, hpath, method, hmethod,
    hep⟩ := h
  cases hep
  refine ⟨rfl, ?_⟩
  simp only [HoldsStrings, endpointStrings, List.forall_mem_cons]
  refine ⟨?_, ?_, ?_, ?_, ?_, ?_, ?_, by simp⟩
  · exact fun s hs => requireStringArg_eq hconn hs
  · exact fun s hs => requireStringArg_eq hname hs
  · exact fun s hs => requireStringArg_eq hdesc hs
  · exact fun s hs => requireStringArg_eq hpath hs
  · exact fun s hs => requireStringArg_eq hmethod hs
  · exact fun s hs => optionalStringArg_of_lookup hs
  · exact fun s hs => optionalStringArg_of_lookup hs

theorem secretArg_ok {args : Params} {key value : Str} (h : secretArg args = .ok (key, value)) :
    lookup "key".toList args = some (.str key) ∧ lookup "value".toList args = some (.str value) := by
  simp only [secretArg, bind_eq_ok] at h
  obtain ⟨k, hk, v, hv, hkv⟩ := h
  cases hkv
  exact ⟨requireStringArg_ok hk, requireStringArg_ok hv⟩

/-- The computed columns of an endpoint row hold no argument. -/
theorem holdsStrings_pinned {db : DB} {args : Params} {ep : APIEndpoint}
    (h : HoldsStrings endpointStrings args ep) : HoldsStrings endpointStrings args (db.pinned ep) := by
  simp only [HoldsStrings, endpointStrings, List.forall_mem_cons, List.not_mem_nil, false_implies,
    implies_true, and_true] at h ⊢
  exact h

theorem addConnection_ok {env : Env} {args : Params} {srv srv' : MCPServer} {text : Str}
    (h : handleAdminTool env .addConnection args srv = (.ok text, srv')) :
    ∃ row, srv'.db.connections.find env.rowID = some row ∧
      HoldsStrings connectionStrings args row := by
  simp only [handleAdminTool] at h
  split at h
  · cases h
  · rename_i conn hconn
    split at h
    · cases h
    · rename_i db hsave
      cases h
      obtain ⟨hid, hholds⟩ := connectionArg_ok hconn
      obtain ⟨_, t, ht, rfl⟩ := DB.saveConnection_ok hsave
      exact ⟨conn, Table.find_eq_some.mpr ⟨(Table.mem_upsert ht).mpr (Or.inl rfl), hid⟩, hholds⟩

theorem addEndpoint_ok {env : Env} {args : Params} {srv srv' : MCPServer} {text : Str}
    (h : handleAdminTool env .addEndpoint args srv = (.ok text, srv')) :
    ∃ row, srv'.db.endpoints.find env.rowID = some row ∧ HoldsStrings endpointStrings args row := by
  simp only [handleAdminTool] at h
  split at h
  · cases h
  · rename_i ep hep
    split at h
    · cases h
    · rename_i db hsave
      cases h
      obtain ⟨hid, hholds⟩ := endpointArg_ok hep
      obtain ⟨_, t, ht, rfl⟩ := DB.saveEndpoint_ok hsave
      exact ⟨srv.db.pinned ep, Table.find_eq_some.mpr ⟨(Table.mem_upsert ht).mpr (Or.inl rfl), hid⟩,
        holdsStrings_pinned hholds⟩

theorem registerVaultSecret_ok {env : Env} {args : Params} {srv srv' : MCPServer} {text : Str}
    (h : handleAdminTool env .registerVaultSecret args srv = (.ok text, srv')) :
    ∃ key value, lookup "key".toList args = some (.str key) ∧
      lookup "value".toList args = some (.str value) ∧
      srv.vault.setSecret env.vaultFault env.nonce key value = (srv'.vault, none) := by
  simp only [handleAdminTool] at h
  split at h
  · cases h
  · rename_i key value hargs
    split at h
    · cases h
    · rename_i vault hset
      cases h
      obtain ⟨hkey, hvalue⟩ := secretArg_ok hargs
      exact ⟨key, value, hkey, hvalue, hset⟩

/-- What the tool has stored is what was sent: the secret reads back and the others are as
they were; the new row holds the strings. -/
def StoredAsSent (tool : AdminTool) (env : Env) (args : Params) (srv srv' : MCPServer) : Prop :=
  match tool with
  | .addConnection =>
    ∃ row, srv'.db.connections.find env.rowID = some row ∧ HoldsStrings connectionStrings args row
  | .addEndpoint =>
    ∃ row, srv'.db.endpoints.find env.rowID = some row ∧ HoldsStrings endpointStrings args row
  | .registerVaultSecret =>
    ∀ key value, lookup "key".toList args = some (.str key) →
      lookup "value".toList args = some (.str value) →
      srv'.vault.getSecret none key = .ok value ∧
        ∀ other, other ≠ key → srv'.vault.getSecret none other = srv.vault.getSecret none other

/-- The redactor leaves the texts that the tool stores; a secret may also be there already,
under its own name and masked under the masked name. -/
def LeftAsSent (tool : AdminTool) (args : Params) (srv : MCPServer) : Prop :=
  match tool with
  | .addConnection => LeavesStrings srv.redactor connectionStrings args
  | .addEndpoint => LeavesStrings srv.redactor endpointStrings args
  | .registerVaultSecret =>
    ∀ key value, lookup "key".toList args = some (.str key) →
      lookup "value".toList args = some (.str value) →
      (masked srv.redactor key = key ∧ masked srv.redactor value = value) ∨
        (masked srv.redactor key ≠ key ∧ srv.vault.getSecret none key = .ok value ∧
          srv.vault.getSecret none (masked srv.redactor key) = .ok (masked srv.redactor value))

/-- A secret that is written under a masked name with a masked value. -/
theorem setSecret_asSent_iff {v v' : Vault.Provider} {fault : Option Str} {nonce : Str}
    {key value key' value' : Str} (h : v.setSecret fault nonce key' value' = (v', none)) :
    (v'.getSecret none key = .ok value ∧
        ∀ other, other ≠ key → v'.getSecret none other = v.getSecret none other) ↔
      (key' = key ∧ value' = value) ∨
        (key' ≠ key ∧ v.getSecret none key = .ok value ∧ v.getSecret none key' = .ok value') := by
  have hself := Vault.getSecret_setSecret_self h
  have hother (other : Str) (hne : other ≠ key') := Vault.getSecret_setSecret_of_ne h hne
  by_cases hk : key' = key
  · subst hk
    rw [hself, Except.ok.injEq]
    constructor
    · intro hstored
      exact Or.inl ⟨rfl, hstored.1⟩
    · rintro (⟨_, hv⟩ | ⟨hne, _⟩)
      · exact ⟨hv, hother⟩
      · exact absurd rfl hne
  · rw [hother key fun he => hk he.symm]
    constructor
    · rintro ⟨hkey, hrest⟩
      exact Or.inr ⟨hk, hkey, by rw [← hrest key' hk, hself]⟩
    · rintro (⟨he, _⟩ | ⟨_, hkey, hkey'⟩)
      · exact absurd he hk
      · refine ⟨hkey, ?_⟩
        intro other _
        by_cases ho : other = key'
        · rw [ho, hself, hkey']
        · exact hother other ho

/-- A row found under its id holds the strings that were sent exactly when the redactor left
them. -/
theorem found_asSent_iff {ρ : Type} {strings : List (String × (ρ → Str))} {redactor : Option Redactor}
    {args : Option Params} {found : Option ρ}
    (h : ∃ row, found = some row ∧ HoldsStrings strings ((redactArgs redactor args).1.getD []) row) :
    (∃ row, found = some row ∧ HoldsStrings strings (args.getD []) row) ↔
      LeavesStrings redactor strings (args.getD []) := by
  obtain ⟨row, rfl, hrow⟩ := h
  simp only [Option.some.injEq, exists_eq_left']
  exact holdsStrings_iff hrow

theorem handleAdminTool_asSent_iff {env : Env} {tool : AdminTool} {args : Option Params}
    {srv srv' : MCPServer} {text : Str}
    (h : handleAdminTool env tool ((redactArgs srv.redactor args).1.getD []) srv = (.ok text, srv')) :
    StoredAsSent tool env (args.getD []) srv srv' ↔ LeftAsSent tool (args.getD []) srv := by
  cases tool with
  | addConnection => exact found_asSent_iff (addConnection_ok h)
  | addEndpoint => exact found_asSent_iff (addEndpoint_ok h)
  | registerVaultSecret =>
    obtain ⟨key', value', hkey', hvalue', hset⟩ := registerVaultSecret_ok h
    obtain ⟨key₀, hkey₀, rfl⟩ := (lookup_redactArgs_str srv.redactor args _ _).mp hkey'
    obtain ⟨value₀, hvalue₀, rfl⟩ := (lookup_redactArgs_str srv.redactor args _ _).mp hvalue'
    simp only [StoredAsSent, LeftAsSent]
    refine forall_congr' fun key => forall_congr' fun value => ?_
    refine imp_congr_right fun hkey => imp_congr_right fun hvalue => ?_
    rw [hkey₀] at hkey
    rw [hvalue₀] at hvalue
    cases hkey
    cases hvalue
    exact setSecret_asSent_iff hset

/-- The answer without an error comes from the tool, and the server after it is the tool's,
up to the audit entry. -/
theorem runCall_admin_ok {env : Env} {identity : Str} {call : CallToolRequest} {tool : AdminTool}
    {srv : MCPServer} (htool : call.name = tool.name)
    (hok : (runCall env identity call srv).1.2 = none) :
    ∃ text srv', handleAdminTool env tool ((redactArgs srv.redactor call.arguments).1.getD []) srv =
        (.ok text, srv') ∧
      (runCall env identity call srv).2.db = srv'.db ∧
      (runCall env identity call srv).2.vault = srv'.vault := by
  have hcall : callTool env call.name (redactArgs srv.redactor call.arguments).1 srv =
      runTarget env (.admin tool) (redactArgs srv.redactor call.arguments).1 srv := by
    simp only [callTool, htool, dispatch_admin]
  simp only [runCall, hcall, runTarget] at hok ⊢
  cases hadmin : handleAdminTool env tool ((redactArgs srv.redactor call.arguments).1.getD []) srv with
  | mk result srv' =>
    cases result with
    | error e => simp [hadmin, callAnswer, Except.mapError] at hok
    | ok text =>
      refine ⟨text, srv', rfl, ?_, ?_⟩
      · simp only [logAuditAsync]
        split <;> rfl
      · simp only [logAuditAsync]
        split <;> rfl

theorem storedAsSent_congr {tool : AdminTool} {env : Env} {args : Params} {srv srv₁ srv₂ : MCPServer}
    (hdb : srv₁.db = srv₂.db) (hvault : srv₁.vault = srv₂.vault) :
    StoredAsSent tool env args srv srv₁ ↔ StoredAsSent tool env args srv srv₂ := by
  cases tool <;> simp only [StoredAsSent, hdb, hvault]

/-- An admin tool whose call is answered with a result has stored what was sent exactly when
the redactor left the stored texts as they are. -/
theorem storedAsSent_iff (env : Env) (identity role : Str) (scopes : List Str) (req : JSONRPCRequest)
    (srv : MCPServer) (call : CallToolRequest) (tool : AdminTool)
    (hcall : reachedCall env role scopes req srv = some call) (htool : call.name = tool.name)
    (hok : (handleRequest env identity role scopes req srv).1.error = none) :
    StoredAsSent tool env (call.arguments.getD []) srv
        (handleRequest env identity role scopes req srv).2 ↔
      LeftAsSent tool (call.arguments.getD []) srv := by
  rw [handleRequest_reached hcall] at hok ⊢
  obtain ⟨text, srv', hadmin, hdb, hvault⟩ := runCall_admin_ok htool hok
  rw [storedAsSent_congr hdb hvault]
  exact handleAdminTool_asSent_iff hadmin

def registerEnv : Env where
  call := ⟨0, 0, fun _ => .ok [], none, fun _ => none, fun _ => .reply 200 []⟩
  listReads := ⟨none, none⟩
  pinReads := ⟨none, none⟩
  callReads := ⟨none, none⟩
  rowID := ['r']
  logID := ['l']
  duration := 0
  storeFails := false
  storeText := fun _ => []
  vaultFault := none
  nonce := []

/-- A server with an empty vault and the built-in redaction rules. -/
def registerServer : MCPServer where
  db := DB.empty false
  client := ⟨⟨[], true⟩, .new 0, .new 0, 0⟩
  vault := .local []
  redactor := some (Redaction.new true [])
  toolPinningStrict := false
  auditCh := []

def registerArgs (value : Str) : Params := [("key".toList, .str ['k']), ("value".toList, .str value)]

def registerCall (value : Str) : CallToolRequest :=
  ⟨AdminTool.name .registerVaultSecret, some (registerArgs value)⟩

def registerRequest (value : Str) : JSONRPCRequest :=
  ⟨"tools/call".toList, some (.obj [("name".toList, .str (AdminTool.name .registerVaultSecret)),
    ("arguments".toList, .obj (registerArgs value))]), .bool true⟩

theorem handleRequest_register_mail :
    (handleRequest registerEnv ['u'] "admin".toList [['*']] (registerRequest "x@y.co".toList)
        registerServer).1.error = none ∧
      (handleRequest registerEnv ['u'] "admin".toList [['*']] (registerRequest "x@y.co".toList)
        registerServer).2.vault.getSecret none ['k'] = .ok "[REDACTED:email]".toList := by
  decide +kernel

/-- The call is answered with a result, and the vault holds the mask. -/
theorem register_mail_not_asSent :
    reachedCall registerEnv "admin".toList [['*']] (registerRequest "x@y.co".toList) registerServer =
        some (registerCall "x@y.co".toList) ∧
      (handleRequest registerEnv ['u'] "admin".toList [['*']] (registerRequest "x@y.co".toList)
        registerServer).1.error = none ∧
      ¬ StoredAsSent .registerVaultSecret registerEnv (registerArgs "x@y.co".toList) registerServer
        (handleRequest registerEnv ['u'] "admin".toList [['*']] (registerRequest "x@y.co".toList)
          registerServer).2 := by
  refine ⟨by decide +kernel, handleRequest_register_mail.1, ?_⟩
  intro h
  have hstored := (h ['k'] "x@y.co".toList rfl rfl).1
  rw [handleRequest_register_mail.2] at hstored
  exact absurd hstored (by decide +kernel)

theorem register_reached :
    reachedCall registerEnv "admin".toList [['*']] (registerRequest ['v']) registerServer =
        some (registerCall ['v']) ∧
      (handleRequest registerEnv ['u'] "admin".toList [['*']] (registerRequest ['v'])
        registerServer).1.error = none ∧
      masked registerServer.redactor ['k'] = ['k'] ∧ masked registerServer.redactor ['v'] = ['v'] := by
  decide +kernel

/-- A secret that no rule matches is stored as it was sent. -/
theorem register_plain_asSent :
    StoredAsSent .registerVaultSecret registerEnv (registerArgs ['v']) registerServer
      (handleRequest registerEnv ['u'] "admin".toList [['*']] (registerRequest ['v'])
        registerServer).2 := by
  obtain ⟨hcall, hok, hkey, hvalue⟩ := register_reached
  refine (storedAsSent_iff registerEnv ['u'] "admin".toList [['*']] (registerRequest ['v'])
    registerServer (registerCall ['v']) .registerVaultSecret hcall rfl hok).mpr ?_
  intro key value hk hv
  cases hk
  cases hv
  exact Or.inl ⟨hkey, hvalue⟩

end Janus.Server
