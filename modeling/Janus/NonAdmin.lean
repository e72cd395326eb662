import Janus.ListedCalls

/-!
# What callers without the admin role can change

The handlers that write are the admin tools, and a name with their prefix passes the
gates for an admin only. Any run of requests by other callers leaves the tables and the
vault as they were, and the admin role is given for two kinds of tokens only.
-/

namespace Janus.Server

set_option autoImplicit false

open Storage

/-- One request with what the outside decides about it and who makes it. -/
structure Incoming where
  env : Env
  identity : Str
  role : Str
  scopes : List Str
  req : JSONRPCRequest

def handleIncoming (srv : MCPServer) (r : Incoming) : MCPServer :=
  (handleRequest r.env r.identity r.role r.scopes r.req srv).2

def handleAll (srv : MCPServer) (rs : List Incoming) : MCPServer := rs.foldl handleIncoming srv

/-- The tables and the secrets are the same. -/
def SameConfig (a b : MCPServer) : Prop := a.db = b.db ∧ a.vault = b.vault

theorem sameConfig_logAuditAsync (entry : AuditLogEntry) (srv : MCPServer) :
    SameConfig (logAuditAsync entry srv) srv := by
  unfold logAuditAsync
  split
  · exact ⟨rfl, rfl⟩
  · exact ⟨rfl, rfl⟩

/-- A caller without the admin role invokes endpoints only. -/
theorem invoked_endpoint {env : Env} {role : Str} {scopes : List Str} {req : JSONRPCRequest}
    {srv : MCPServer} {call : CallToolRequest} {target : Target} (hrole : role ≠ "admin".toList)
    (h : invoked env role scopes req srv = some (call, target)) :
    ∃ ep conn, target = .endpoint ep conn := by
  obtain ⟨hcall, hd⟩ := invoked_eq_some.mp h
  obtain ⟨hadmin, _⟩ := gate_eq_none_iff.mp (gate_of_reachedCall hcall)
  rcases dispatch_ok hd with ⟨t, _, _, hprefix⟩ | ⟨ep, conn, htarget, _⟩
  · exact absurd (hadmin hprefix) hrole
  · exact ⟨ep, conn, htarget⟩

theorem sameConfig_handleIncoming {r : Incoming} (hrole : r.role ≠ "admin".toList) (srv : MCPServer) :
    SameConfig (handleIncoming srv r) srv := by
  unfold handleIncoming
  cases h : invoked r.env r.role r.scopes r.req srv with
  | none =>
    rcases handleRequest_not_invoked r.identity h with hsame | ⟨entry, hlog⟩
    · rw [hsame]
      exact ⟨rfl, rfl⟩
    · rw [hlog]
      exact sameConfig_logAuditAsync entry srv
  | some p =>
    obtain ⟨call, target⟩ := p
    obtain ⟨ep, conn, rfl⟩ := invoked_endpoint hrole h
    obtain ⟨entry, hlog⟩ := handleRequest_invoked r.identity h
    rw [hlog]
    exact sameConfig_logAuditAsync entry _

theorem sameConfig_handleAll {rs : List Incoming} (hroles : ∀ r ∈ rs, r.role ≠ "admin".toList)
    (srv : MCPServer) : SameConfig (handleAll srv rs) srv := by
  induction rs generalizing srv with
  | nil => exact ⟨rfl, rfl⟩
  | cons r rs ih =>
    obtain ⟨hdb, hvault⟩ := ih (fun r' hr' => hroles r' (List.mem_cons_of_mem r hr')) (handleIncoming srv r)
    obtain ⟨hdb', hvault'⟩ := sameConfig_handleIncoming (hroles r List.mem_cons_self) srv
    exact ⟨hdb.trans hdb', hvault.trans hvault'⟩

/-- The token is the master token, as far as its digest tells. -/
def IsMaster (w : World) (token : Str) : Prop :=
  w.gatewayToken ≠ [] ∧ Sha256.sha256 token = Sha256.sha256 w.gatewayToken

/-- The token has an enabled row with the admin role. -/
def HasAdminRow (w : World) (token : Str) : Prop :=
  ∃ row ∈ w.srv.db.tokens, row.token = DB.hashToken token ∧ row.enabled = true ∧
    row.clientRole = "admin".toList

theorem resolveAuth_admin {readFails : Bool} {token : Str} {w : World} {who : Identity}
    (h : resolveAuth readFails token w = some who) (hrole : who.role = "admin".toList) :
    IsMaster w token ∨ HasAdminRow w token := by
  unfold resolveAuth at h
  split at h
  · rename_i hmaster
    simp only [verifyGatewayToken, Bool.and_eq_true, decide_eq_true_eq] at hmaster
    exact Or.inl hmaster
  · split at h
    · rename_i ct hct
      cases h
      split at hct
      · cases hct
      · obtain ⟨hget, henabled⟩ := Option.filter_eq_some_iff.mp hct
        obtain ⟨row, hrow, rfl⟩ := Option.map_eq_some_iff.mp hget
        obtain ⟨hmem, hkey⟩ := Table.find_eq_some.mp hrow
        exact Or.inr ⟨row, hmem, hkey, henabled, hrole⟩
    · obtain ⟨claims, _, rfl⟩ := Option.map_eq_some_iff.mp h
      have huser : "user".toList ≠ "admin".toList := by decide
      exact absurd hrole huser

/-- At every point of a run of requests without the admin role the tables and the vault are
as they were at its start; and a token is given the admin role only when it is the master
token or has an enabled row of that role, whatever an OAuth validator says about it. -/
theorem nonAdmin_config_unchanged (srv : MCPServer) (rs : List Incoming)
    (hroles : ∀ r ∈ rs, r.role ≠ "admin".toList) :
    (∀ n, SameConfig (handleAll srv (rs.take n)) srv) ∧
      ∀ (w : World) (readFails : Bool) (token : Str) (who : Identity),
        resolveAuth readFails token w = some who → who.role = "admin".toList →
          IsMaster w token ∨ HasAdminRow w token := by
  refine ⟨?_, ?_⟩
  · intro n
    exact sameConfig_handleAll (fun r hr => hroles r (List.mem_of_mem_take hr)) srv
  · intro w readFails token who h hrole
    exact resolveAuth_admin h hrole

/-- A user with every scope calls an admin tool. -/
def adminAttempt : Incoming where
  env := quietEnv
  identity := ['u']
  role := "user".toList
  scopes := [['*'], "admin_*".toList]
  req := ⟨"tools/call".toList, some (.obj [("name".toList, .str (AdminTool.name .registerVaultSecret)),
    ("arguments".toList, .obj [("key".toList, .str ['k']), ("value".toList, .str ['v'])])]), .bool true⟩

theorem adminAttempt_unchanged : SameConfig (handleAll shadowServer [adminAttempt]) shadowServer := by
  have hroles : ∀ r ∈ [adminAttempt], r.role ≠ "admin".toList := by
    intro r hr
    rw [List.mem_singleton.mp hr]
    decide
  exact (nonAdmin_config_unchanged shadowServer [adminAttempt] hroles).1 1

end Janus.Server
