import Janus.Lib.UrlRequest
import Janus.Storage
import Janus.Vault

/-!
# Deletions over HTTP

Embedding of the DELETE branches of `handleVault` and `handleTokens`, and of the two
commands and the page that send requests to them. The commands write the name into the
query as it is, so that they delete what they name if it has none of five characters
(`deletes_named_iff`). The page names a token by a text the portal never lists
(`portal_delete_refused`).
-/

namespace Janus.PortalDeletes

set_option autoImplicit false

open Storage Vault

/-- A change that a handler asks the stores for. -/
inductive StoreCall where
  | deleteSecret (key : Str)
  | deleteClientToken (token : Str)
  | deleteClientTokenByName (name : Str)
  deriving Repr, DecidableEq

/-- `Query().Get`. -/
def queryGet (rawQuery name : Str) : Str := (Url.valuesOf rawQuery name).head?.getD []

/-- The branch of `handleVault`: a change, or the text of a bad request. -/
def handleVaultDelete (rawQuery : Str) : Except Str StoreCall :=
  let key := queryGet rawQuery "key".toList
  if key = [] then .error "\x7b\"error\":\"missing key parameter\"\x7d".toList
  else .ok (.deleteSecret key)

def handleTokensDelete (rawQuery : Str) : Except Str StoreCall :=
  let name := queryGet rawQuery "client_name".toList
  let token := queryGet rawQuery "token".toList
  if name ≠ [] then .ok (.deleteClientTokenByName name)
  else if token ≠ [] then .ok (.deleteClientToken token)
  else .error "\x7b\"error\":\"missing client_name parameter\"\x7d".toList

structure Stores where
  vault : Provider
  db : DB

/-- How the stores fail, if they do. -/
structure Faults where
  vault : Option Str
  db : Bool

/-- The stores after a change, and the text of a failure. -/
def StoreCall.exec (faults : Faults) (s : Stores) : StoreCall → Stores × Option Str
  | .deleteSecret key =>
    let (v, e) := s.vault.deleteSecret faults.vault key
    ({ s with vault := v }, e.map fun _ => "\x7b\"error\":\"failed to delete secret\"\x7d".toList)
  | .deleteClientToken token =>
    match s.db.deleteClientToken faults.db token with
    | .ok db => ({ s with db := db }, none)
    | .error _ => (s, some "\x7b\"error\":\"internal server error\"\x7d".toList)
  | .deleteClientTokenByName name =>
    match s.db.deleteClientTokenByName faults.db name with
    | .ok db => ({ s with db := db }, none)
    | .error _ => (s, some "\x7b\"error\":\"internal server error\"\x7d".toList)

structure Response where
  status : Nat
  body : Str
  deriving Repr, DecidableEq

def respond (faults : Faults) (s : Stores) : Except Str StoreCall → Stores × Response
  | .error msg => (s, ⟨400, msg⟩)
  | .ok call =>
    match call.exec faults s with
    | (s', none) => (s', ⟨204, []⟩)
    | (s', some msg) => (s', ⟨500, msg⟩)

def vaultRoute : Str := "/api/vault".toList

def tokensRoute : Str := "/api/tokens".toList

/-- The handler that a path is registered for. -/
def route (u : Url.URL) : Option (Except Str StoreCall) :=
  if u.path = Text.bytes vaultRoute then some (handleVaultDelete u.rawQuery)
  else if u.path = Text.bytes tokensRoute then some (handleTokensDelete u.rawQuery)
  else none

/-- The address of a gateway: a base URL that has neither a query nor a fragment. -/
structure GatewayAddr where
  text : Str
  noQuery : '?' ∉ text
  noFragment : '#' ∉ text

/-- The path and query of `vault delete`, none where the command refuses its arguments. -/
def vaultDelete (key : Str) : Option Str :=
  if key = [] then none else some (vaultRoute ++ "?key=".toList ++ key)

def tokenDelete (token : Str) : Option Str :=
  if token = [] then none else some (tokensRoute ++ "?token=".toList ++ token)

/-- `makeRequest`, up to the URL that the server reads. -/
def makeRequest (addr : GatewayAddr) (path : Str) : Option Url.URL :=
  (Url.requestTarget (Text.trimRight (· = '/') addr.text ++ path)).bind Url.received

/-- The change that an accepted request of a command makes. -/
def accepted (addr : GatewayAddr) (command : Option Str) : Option StoreCall :=
  command.bind fun path => (makeRequest addr path).bind fun u => (route u).bind fun r => r.toOption

section Delivery

variable {addr : GatewayAddr} {path : Str} {u : Url.URL}

/-- What stands before the query has no mark of one. -/
theorem notMem_base (addr : GatewayAddr) {path : Str} {c : Char} (hc : c = '?' ∨ c = '#') (hpath : c ∉ path) :
    c ∉ Text.trimRight (· = '/') addr.text ++ path := by
  have haddr : c ∉ addr.text := by
    rcases hc with rfl | rfl
    · exact addr.noQuery
    · exact addr.noFragment
  rw [List.mem_append]
  rintro (hm | hm)
  · apply haddr
    unfold Text.trimRight at hm
    exact List.mem_reverse.mp ((List.dropWhile_suffix _).subset (List.mem_reverse.mp hm))
  · exact hpath hm

/-- A parameter that is appended to the path is the query that arrives, up to the fragment. -/
theorem rawQuery_makeRequest {name k : Str} (hquery : '?' ∉ path) (hfrag : '#' ∉ path)
    (hname : '#' ∉ name) (h : makeRequest addr (path ++ '?' :: (name ++ '=' :: k)) = some u) :
    u.rawQuery = name ++ '=' :: (Url.cutAt '#' k).1 := by
  have hcut : (Url.cutAt '#' (name ++ '=' :: k)).1 = name ++ '=' :: (Url.cutAt '#' k).1 := by
    have hleft : '#' ∉ name ++ ['='] := by simp [hname]
    have happ := Url.cut_append_left hleft k
    rw [List.append_assoc, List.singleton_append] at happ
    unfold Url.cutAt
    rw [happ]
    cases Text.cut '#' k <;> simp
  obtain ⟨target, hsend, hrecv⟩ := Option.bind_eq_some_iff.mp h
  rw [← List.append_assoc] at hsend
  rw [← hcut]
  refine Url.received_query (notMem_base addr (.inl rfl) hquery) (notMem_base addr (.inr rfl) hfrag) ?_
    hsend hrecv
  rw [hcut]
  simp

end Delivery

theorem queryGet_of_head {q name v : Str} (h : queryGet q name = v) (hv : v ≠ []) :
    v ∈ Url.valuesOf q name := by
  unfold queryGet at h
  cases hvs : Url.valuesOf q name with
  | nil =>
    rw [hvs] at h
    exact absurd h.symm hv
  | cons x xs =>
    rw [hvs] at h
    exact h ▸ List.mem_cons_self

theorem queryGet_bare {name k other : Str} (hname : Url.Bare name) (heq : '=' ∉ name) (hk : Url.Bare k) :
    queryGet (name ++ '=' :: k) other = if name = other then k else [] := by
  rw [queryGet, Url.valuesOf_eq, Url.readPairs_bare hname heq hk]
  by_cases ho : name = other
  · simp [ho]
  · simp [ho]

theorem front_of_bare {k : Str} (hk : Url.Bare k) : (Url.cutAt '#' k).1 = k := by
  rw [Url.cutAt_of_notMem (hk.notMem (by decide))]

/-- The change is the deletion of the secret, and leaves every other secret and all tokens. -/
def NamesSecret (key : Str) (call : StoreCall) : Prop :=
  call = .deleteSecret key ∧ ∀ faults s,
    (∀ name, name ≠ key → (call.exec faults s).1.vault.getSecret none name = s.vault.getSecret none name) ∧
    (call.exec faults s).1.db = s.db

/-- The change is the deletion of the token, and leaves every other token and all secrets. -/
def NamesToken (token : Str) (call : StoreCall) : Prop :=
  call = .deleteClientToken token ∧ ∀ faults s,
    (∀ other, DB.hashToken other ≠ DB.hashToken token →
      (call.exec faults s).1.db.getClientToken other = s.db.getClientToken other) ∧
    (call.exec faults s).1.vault = s.vault

theorem namesSecret_iff {key : Str} {call : StoreCall} :
    NamesSecret key call ↔ call = .deleteSecret key := by
  refine ⟨And.left, ?_⟩
  rintro rfl
  refine ⟨rfl, fun faults s => ⟨?_, rfl⟩⟩
  intro name hne
  exact getSecret_deleteSecret_of_ne hne

theorem namesToken_iff {token : Str} {call : StoreCall} :
    NamesToken token call ↔ call = .deleteClientToken token := by
  refine ⟨And.left, ?_⟩
  rintro rfl
  refine ⟨rfl, fun faults s => ?_⟩
  cases hf : faults.db with
  | true => simp [StoreCall.exec, DB.deleteClientToken, hf]
  | false =>
    simp only [StoreCall.exec, DB.deleteClientToken, hf]
    refine ⟨?_, rfl⟩
    intro other hne
    exact congrArg (Option.map _) (Table.find_delete_of_ne (Ne.symm hne))

theorem handleVaultDelete_ok {q : Str} {call : StoreCall} (h : handleVaultDelete q = .ok call) :
    ∃ key, call = .deleteSecret key ∧ queryGet q "key".toList = key ∧ key ≠ [] := by
  unfold handleVaultDelete at h
  dsimp only at h
  split at h
  · cases h
  · rename_i hne
    cases h
    exact ⟨_, rfl, rfl, hne⟩

theorem handleTokensDelete_ok {q : Str} {call : StoreCall} (h : handleTokensDelete q = .ok call) :
    (∃ name, call = .deleteClientTokenByName name ∧ queryGet q "client_name".toList = name ∧ name ≠ []) ∨
      ∃ token, call = .deleteClientToken token ∧ queryGet q "client_name".toList = [] ∧
        queryGet q "token".toList = token ∧ token ≠ [] := by
  unfold handleTokensDelete at h
  dsimp only at h
  split at h
  · rename_i hne
    cases h
    exact .inl ⟨_, rfl, rfl, hne⟩
  · rename_i hname
    split at h
    · rename_i hne
      cases h
      exact .inr ⟨_, rfl, by simpa using hname, rfl, hne⟩
    · cases h

/-- An accepted request came with its parameter to one of the two handlers. -/
theorem accepted_cases {addr : GatewayAddr} {path name k : Str} {call : StoreCall} (hquery : '?' ∉ path)
    (hfrag : '#' ∉ path) (hname : '#' ∉ name)
    (h : accepted addr (if k = [] then none else some (path ++ '?' :: (name ++ '=' :: k))) = some call) :
    k ≠ [] ∧ (handleVaultDelete (name ++ '=' :: (Url.cutAt '#' k).1) = .ok call ∨
      handleTokensDelete (name ++ '=' :: (Url.cutAt '#' k).1) = .ok call) := by
  have hof {r : Except Str StoreCall} (hr : r.toOption = some call) : r = .ok call := by
    cases r with
    | error e => cases hr
    | ok c => exact congrArg Except.ok (Option.some.inj hr)
  obtain ⟨sent, hsent, h⟩ := Option.bind_eq_some_iff.mp h
  split at hsent
  · cases hsent
  · rename_i hne
    cases hsent
    obtain ⟨u, hu, h⟩ := Option.bind_eq_some_iff.mp h
    obtain ⟨r, hr, h⟩ := Option.bind_eq_some_iff.mp h
    refine ⟨hne, ?_⟩
    rw [← rawQuery_makeRequest hquery hfrag hname hu]
    unfold route at hr
    split at hr
    · cases hr
      exact .inl (hof h)
    · split at hr
      · cases hr
        exact .inr (hof h)
      · cases hr

theorem accepted_vault_iff {addr : GatewayAddr} {key : Str} {call : StoreCall}
    (h : accepted addr (vaultDelete key) = some call) : call = .deleteSecret key ↔ Url.Bare key := by
  have htext : vaultRoute ++ "?key=".toList ++ key = vaultRoute ++ '?' :: ("key".toList ++ '=' :: key) :=
    List.append_assoc ..
  rw [vaultDelete, htext] at h
  obtain ⟨hne, h⟩ := accepted_cases (by decide) (by decide) (by decide) h
  constructor
  · rintro rfl
    rcases h with h | h
    · obtain ⟨k, hk, hget, _⟩ := handleVaultDelete_ok h
      cases hk
      exact Url.bare_of_mem_valuesOf hne (queryGet_of_head hget hne)
    · rcases handleTokensDelete_ok h with ⟨_, hcall, _⟩ | ⟨_, hcall, _⟩
      · cases hcall
      · cases hcall
  · intro hbare
    rw [front_of_bare hbare] at h
    have hget (other : Str) : queryGet ("key".toList ++ '=' :: key) other = _ :=
      queryGet_bare (by decide) (by decide) hbare
    rcases h with h | h
    · obtain ⟨k, rfl, hk, _⟩ := handleVaultDelete_ok h
      rw [hget, if_pos rfl] at hk
      rw [hk]
    · rcases handleTokensDelete_ok h with ⟨_, _, hk, hk'⟩ | ⟨_, _, _, hk, hk'⟩
      · exact absurd hk.symm (by rwa [hget, if_neg (by decide)])
      · exact absurd hk.symm (by rwa [hget, if_neg (by decide)])

theorem accepted_token_iff {addr : GatewayAddr} {token : Str} {call : StoreCall}
    (h : accepted addr (tokenDelete token) = some call) :
    call = .deleteClientToken token ↔ Url.Bare token := by
  have htext : tokensRoute ++ "?token=".toList ++ token =
      tokensRoute ++ '?' :: ("token".toList ++ '=' :: token) :=
    List.append_assoc ..
  rw [tokenDelete, htext] at h
  obtain ⟨hne, h⟩ := accepted_cases (by decide) (by decide) (by decide) h
  constructor
  · rintro rfl
    rcases h with h | h
    · obtain ⟨_, hcall, _⟩ := handleVaultDelete_ok h
      cases hcall
    · rcases handleTokensDelete_ok h with ⟨_, hcall, _⟩ | ⟨t, ht, _, hget, _⟩
      · cases hcall
      · cases ht
        exact Url.bare_of_mem_valuesOf hne (queryGet_of_head hget hne)
  · intro hbare
    rw [front_of_bare hbare] at h
    have hget (other : Str) : queryGet ("token".toList ++ '=' :: token) other = _ :=
      queryGet_bare (by decide) (by decide) hbare
    rcases h with h | h
    · obtain ⟨_, _, hk, hk'⟩ := handleVaultDelete_ok h
      exact absurd hk.symm (by rwa [hget, if_neg (by decide)])
    · rcases handleTokensDelete_ok h with ⟨_, _, hk, hk'⟩ | ⟨t, rfl, _, hk, _⟩
      · exact absurd hk.symm (by rwa [hget, if_neg (by decide)])
      · rw [hget, if_pos rfl] at hk
        rw [hk]

/-- An accepted deletion is the one that was named exactly for names without the marks. -/
theorem deletes_named_iff (addr : GatewayAddr) :
    (∀ key call, accepted addr (vaultDelete key) = some call →
      (NamesSecret key call ↔ Url.Bare key)) ∧
    ∀ token call, accepted addr (tokenDelete token) = some call →
      (NamesToken token call ↔ Url.Bare token) := by
  constructor
  · intro key call h
    exact namesSecret_iff.trans (accepted_vault_iff h)
  · intro token call h
    exact namesToken_iff.trans (accepted_token_iff h)

def localAddr : GatewayAddr := ⟨"http://localhost:8899".toList, by decide, by decide⟩

theorem deletes_named_local :
    accepted localAddr (vaultDelete "prod/key".toList) = some (.deleteSecret "prod/key".toList) ∧
      NamesSecret "prod/key".toList (.deleteSecret "prod/key".toList) := by
  have h : accepted localAddr (vaultDelete "prod/key".toList) =
      some (.deleteSecret "prod/key".toList) := by decide +kernel
  exact ⟨h, ((deletes_named_iff localAddr).1 _ _ h).mpr (by decide)⟩

/-- A plus sign names another secret, and an ampersand another parameter. -/
theorem not_deletes_named :
    accepted localAddr (vaultDelete "a+b".toList) = some (.deleteSecret "a b".toList) ∧
    ¬ NamesSecret "a+b".toList (.deleteSecret "a b".toList) ∧
    accepted localAddr (tokenDelete "t&client_name=bob".toList) =
      some (.deleteClientTokenByName "bob".toList) ∧
    ¬ NamesToken "t&client_name=bob".toList (.deleteClientTokenByName "bob".toList) := by
  refine ⟨by decide +kernel, ?_, by decide +kernel, ?_⟩
  · rw [namesSecret_iff]
    decide
  · rw [namesToken_iff]
    decide

/-- A row as it is listed, without the hash of its token. -/
def listed (row : ClientToken) : ClientToken := { row with token := [] }

/-- `GetClientTokens`. -/
def getClientTokens (db : DB) : List ClientToken := db.tokens.rows.map listed

def escapeHtml (text : Str) : Str :=
  text.flatMap fun c =>
    if c = '&' then "&amp;".toList
    else if c = '<' then "&lt;".toList
    else if c = '>' then "&gt;".toList
    else if c = '"' then "&quot;".toList
    else if c.toNat = 0x27 then "&#039;".toList
    else [c]

def encodeURIComponent (s : Str) : Str :=
  (Text.bytes s).flatMap fun b =>
    if Url.isAlnum b || Url.isOneOf b "-_.!~*'()" then [Char.ofNat b]
    else ['%', Url.upperHex (b / 16), Url.upperHex (b % 16)]

/-- A browser: what a quoted string of the script in an attribute stands for. -/
structure Browser where
  literal : Str → Option Str
  literal_nil : literal [] = some []

/-- The request of `deleteClientToken` behind the button of a listed row. -/
def deleteClientToken (b : Browser) (t : ClientToken) : Option Str :=
  (b.literal (escapeHtml t.token)).map fun token =>
    tokensRoute ++ "?token=".toList ++ encodeURIComponent token

/-- The stores and the answer after the button of a row is pressed. -/
def press (b : Browser) (faults : Faults) (s : Stores) (t : ClientToken) : Option (Stores × Response) :=
  (deleteClientToken b t).bind fun target =>
    (Url.received target).bind fun u => (route u).map (respond faults s)

/-- The request for a listed row is accepted, after which its token and no other is gone. -/
def Revokes (b : Browser) (faults : Faults) (s : Stores) (t row : ClientToken) : Prop :=
  ∃ s', press b faults s t = some (s', ⟨204, []⟩) ∧
    ∀ token, s'.db.getClientToken token =
      if DB.hashToken token = row.token then none else s.db.getClientToken token

/-- A row is listed without what would name its token. -/
theorem press_listed (b : Browser) (faults : Faults) (s : Stores) (row : ClientToken) :
    press b faults s (listed row) =
      some (s, ⟨400, "\x7b\"error\":\"missing client_name parameter\"\x7d".toList⟩) := by
  have htarget : deleteClientToken b (listed row) = some (tokensRoute ++ "?token=".toList) := by
    have hempty : escapeHtml (listed row).token = [] := rfl
    rw [deleteClientToken, hempty, b.literal_nil]
    rfl
  have hroute : (Url.received (tokensRoute ++ "?token=".toList)).bind route =
      some (.error "\x7b\"error\":\"missing client_name parameter\"\x7d".toList) := by
    decide +kernel
  obtain ⟨u, hu, hr⟩ := Option.bind_eq_some_iff.mp hroute
  rw [press, htarget, Option.bind_some, hu, Option.bind_some, hr]
  rfl

/-- No listed token is revoked by its button: the request is refused and nothing changes. -/
theorem portal_delete_refused (b : Browser) (faults : Faults) (s : Stores) {t : ClientToken}
    (ht : t ∈ getClientTokens s.db) :
    (∃ msg, press b faults s t = some (s, ⟨400, msg⟩)) ∧ ∀ row, ¬ Revokes b faults s t row := by
  obtain ⟨row, _, rfl⟩ := List.mem_map.mp ht
  have hpress := press_listed b faults s row
  refine ⟨⟨_, hpress⟩, ?_⟩
  rintro _ ⟨s', hs', _⟩
  rw [hpress] at hs'
  cases hs'

/-- A browser that reads the strings without escapes. -/
def plainBrowser : Browser := ⟨fun s => if s.contains '\\' then none else some s, by decide⟩

def bobRow : ClientToken := ⟨DB.hashToken ['t'], "bob".toList, "developer".toList, ['*'], true⟩

def bobStores : Stores :=
  ⟨.local [], { DB.empty true with tokens := ⟨[bobRow], by simp, by simp⟩ }⟩

theorem getClientToken_bob : bobStores.db.getClientToken ['t'] = some (listed bobRow) := by
  simp [DB.getClientToken, Table.find, bobStores, bobRow, listed]

theorem portal_delete_refused_bob :
    (∃ msg, press plainBrowser ⟨none, false⟩ bobStores (listed bobRow) = some (bobStores, ⟨400, msg⟩)) ∧
      ∀ row, ¬ Revokes plainBrowser ⟨none, false⟩ bobStores (listed bobRow) row :=
  portal_delete_refused plainBrowser ⟨none, false⟩ bobStores (List.mem_map_of_mem List.mem_cons_self)

/-- The token of a listed row is as good after the request as before it. -/
theorem bob_not_revoked :
    listed bobRow ∈ getClientTokens bobStores.db ∧
    ∃ msg, press plainBrowser ⟨none, false⟩ bobStores (listed bobRow) = some (bobStores, ⟨400, msg⟩) ∧
      bobStores.db.getClientToken ['t'] = some (listed bobRow) ∧
      ¬ Revokes plainBrowser ⟨none, false⟩ bobStores (listed bobRow) bobRow := by
  have hpress := press_listed plainBrowser ⟨none, false⟩ bobStores bobRow
  refine ⟨List.mem_map_of_mem List.mem_cons_self, _, hpress, getClientToken_bob, ?_⟩
  rintro ⟨s', hs', _⟩
  rw [hpress] at hs'
  cases hs'

end Janus.PortalDeletes
