import Janus.Lib.Run
import Janus.PortalSessions

/-!
# What the portal shows of its secrets

The portal takes the values of secrets and lists their names. Two runs side by side, over vaults
with secrets under the same names and with requests that differ in nothing but the values they
store, are answered alike (`values_unseen`): whoever talks to the portal learns nothing of a
value that is stored in it, administrators included.
-/

namespace Janus.PortalServer

set_option autoImplicit false

open Storage Vault
open PortalDeletes (Stores StoreCall)

inductive SameNames : Provider → Provider → Prop
  | local {xs ys : List (Str × Str)} (names : xs.map Prod.fst = ys.map Prod.fst) :
    SameNames (.local xs) (.local ys)
  | postgres {key key' : Str} {xs ys : List (Str × Box)} (names : xs.map Prod.fst = ys.map Prod.fst) :
    SameNames (.postgres key xs) (.postgres key' ys)

section Names

variable {α : Type} {xs ys : List (Str × α)}

theorem unvalued_eq (h : xs.map Prod.fst = ys.map Prod.fst) :
    (xs.map fun m => (m.1, ())) = ys.map fun m => (m.1, ()) := by
  have hmap := congrArg (List.map fun k => (k, ())) h
  rwa [List.map_map, List.map_map] at hmap

theorem names_setMember (h : xs.map Prod.fst = ys.map Prod.fst) (k : Str) (v w : α) :
    (setMember k v xs).map Prod.fst = (setMember k w ys).map Prod.fst := by
  have hunit (u : α) (ms : List (Str × α)) : (setMember k u ms).map Prod.fst =
      (setMember k () (ms.map fun m => (m.1, ()))).map Prod.fst := by
    rw [← setMember_map (fun _ => ()) k u ms, List.map_map]
    rfl
  rw [hunit v xs, hunit w ys, unvalued_eq h]

theorem names_filter (h : xs.map Prod.fst = ys.map Prod.fst) (k : Str) :
    (xs.filter fun m => m.1 ≠ k).map Prod.fst = (ys.filter fun m => m.1 ≠ k).map Prod.fst := by
  have hfst (ms : List (Str × α)) : (ms.filter fun m => m.1 ≠ k).map Prod.fst =
      (ms.map Prod.fst).filter fun n => n ≠ k := by
    rw [List.filter_map]
    rfl
  rw [hfst xs, hfst ys, h]

end Names

variable {v w : Provider}

theorem SameNames.setSecret (h : SameNames v w) (fault : Option Str) (nonce nonce' name x y : Str) :
    SameNames (v.setSecret fault nonce name x).1 (w.setSecret fault nonce' name y).1 ∧
      (v.setSecret fault nonce name x).2 = (w.setSecret fault nonce' name y).2 := by
  cases h with
  | «local» names => exact ⟨.local (names_setMember names name x y), rfl⟩
  | postgres names =>
    cases fault with
    | some cause => exact ⟨.postgres names, rfl⟩
    | none => exact ⟨.postgres (names_setMember names name _ _), rfl⟩

theorem SameNames.deleteSecret (h : SameNames v w) (fault : Option Str) (name : Str) :
    SameNames (v.deleteSecret fault name).1 (w.deleteSecret fault name).1 ∧
      (v.deleteSecret fault name).2 = (w.deleteSecret fault name).2 := by
  cases h with
  | «local» names => exact ⟨.local (names_filter names name), rfl⟩
  | postgres names =>
    cases fault with
    | some cause => exact ⟨.postgres names, rfl⟩
    | none => exact ⟨.postgres (names_filter names name), rfl⟩

theorem SameNames.listSecrets (h : SameNames v w) (env : Env) : listSecrets env v = listSecrets env w := by
  cases h with
  | «local» names => simp only [PortalServer.listSecrets, names]
  | postgres names => simp only [PortalServer.listSecrets, names]

def State.withVault (s : State) (w : Provider) : State := { s with stores := { s.stores with vault := w } }

/-- The handler neither reads nor changes the vault. -/
def Unvaulted (h : State → State × Response) : Prop :=
  ∀ s w, h (s.withVault w) = ((h s).1.withVault w, (h s).2)

theorem committed_withVault (s : State) (w : Provider) (result : Except StoreError DB) (resp : Response) :
    committed (s.withVault w) result resp =
      ((committed s result resp).1.withVault w, (committed s result resp).2) := by
  cases result with
  | error e => rfl
  | ok db => rfl

theorem unvaulted_handleConnections (env : Env) (r : Request) : Unvaulted (handleConnections env r) := by
  intro s w
  unfold handleConnections
  split
  · cases env.connectionReads <;> rfl
  · split
    · cases decodeBody decodeConnection r with
      | none => rfl
      | some conn => exact committed_withVault s w _ _
    · split
      · cases pathID r with
        | none => rfl
        | some id => exact committed_withVault s w _ _
      · rfl

theorem unvaulted_handleEndpoints (env : Env) (r : Request) : Unvaulted (handleEndpoints env r) := by
  intro s w
  unfold handleEndpoints
  split
  · cases env.endpointReads <;> rfl
  · split
    · cases decodeBody decodeEndpoint r with
      | none => rfl
      | some ep => exact committed_withVault s w _ _
    · split
      · cases pathID r with
        | none => rfl
        | some id => exact committed_withVault s w _ _
      · rfl

theorem exec_withVault (faults : PortalDeletes.Faults) (s : Stores) (w : Provider) {call : StoreCall}
    (h : ∀ key, call ≠ .deleteSecret key) : call.exec faults { s with vault := w } =
      ({ (call.exec faults s).1 with vault := w }, (call.exec faults s).2) := by
  cases call with
  | deleteSecret key => exact absurd rfl (h key)
  | deleteClientToken token =>
    unfold StoreCall.exec
    dsimp only
    split <;> rfl
  | deleteClientTokenByName name =>
    unfold StoreCall.exec
    dsimp only
    split <;> rfl

theorem executed_withVault (env : Env) (s : State) (w : Provider) (query : Str) :
    executed env (s.withVault w) (PortalDeletes.handleTokensDelete query) =
      ((executed env s (PortalDeletes.handleTokensDelete query)).1.withVault w,
        (executed env s (PortalDeletes.handleTokensDelete query)).2) := by
  cases hcall : PortalDeletes.handleTokensDelete query with
  | error msg => rfl
  | ok call =>
    have htoken : ∀ key, call ≠ .deleteSecret key := by
      rintro key rfl
      unfold PortalDeletes.handleTokensDelete at hcall
      dsimp only at hcall
      split at hcall
      · cases hcall
      · split at hcall <;> cases hcall
    have hexec := exec_withVault env.faults s.stores w htoken
    unfold executed PortalDeletes.respond State.withVault
    dsimp only
    rw [hexec]
    obtain ⟨stores, _ | msg⟩ := call.exec env.faults s.stores <;> rfl

theorem unvaulted_handleTokens (env : Env) (r : Request) : Unvaulted (handleTokens env r) := by
  intro s w
  unfold handleTokens
  split
  · cases env.tokenReads <;> rfl
  · split
    · cases decodeBody decodeToken r with
      | none => rfl
      | some t =>
        dsimp only
        by_cases hname : t.clientName = []
        · rw [if_pos hname, if_pos hname]
        · rw [if_neg hname, if_neg hname]
          exact committed_withVault s w _ _
    · split
      · exact executed_withVault env s w _
      · rfl

/-- Behind the middleware only the handler of the vault has to do with it. -/
theorem unvaulted_handleAdmin (p : Portal) (env : Env) (r : Request) {rt : Route} (h : rt ≠ .vault) :
    Unvaulted fun s => handleAdmin p env r s rt := by
  cases rt with
  | vault => exact absurd rfl h
  | connections => exact unvaulted_handleConnections env r
  | endpoints => exact unvaulted_handleEndpoints env r
  | tokens => exact unvaulted_handleTokens env r
  | importOpenAPI | logs | settings | operationalStats | openAPI | login | ssoLogin | ssoCallback
  | mockTradeVolume | mockNonCashCollateral | frontend => exact fun _ _ => rfl

/-- Nothing differs but the values in the vault and the key that seals them. -/
structure Alike (s t : State) : Prop where
  vault : SameNames s.stores.vault t.stores.vault
  db : s.stores.db = t.stores.db
  logs : s.logs = t.logs
  keys : s.keys = t.keys

/-- The same request, or two that store values under one name. -/
inductive SameButValue (p : Portal) : Request → Request → Prop
  | same (r : Request) : SameButValue p r r
  | stored {r r' : Request} {key x y : Str} (route : route p.demo r = some .vault)
    (post : r.method = "POST".toList) (rest : r' = { r with body := r'.body })
    (body : decodeBody decodeSecret r = some ⟨key, x⟩)
    (body' : decodeBody decodeSecret r' = some ⟨key, y⟩)
    (value : x ≠ []) (value' : y ≠ []) : SameButValue p r r'

def Env.withNonce (env : Env) (nonce : List Char) : Env := { env with nonce := nonce }

/-- Actions in one environment. What is sealed is sealed with a nonce of its own. -/
structure Twin (p : Portal) (a b : Action) : Prop where
  env : b.env = a.env.withNonce b.env.nonce
  request : SameButValue p a.request b.request

variable {p : Portal} {s t : State} {a b : Action}

theorem Alike.eq_withVault (h : Alike s t) : t = s.withVault t.stores.vault := by
  obtain ⟨⟨v, db⟩, logs, keys⟩ := s
  obtain ⟨⟨w, db'⟩, logs', keys'⟩ := t
  cases h.db
  cases h.logs
  cases h.keys
  rfl

/-- A handler that has no secrets answers alike. -/
theorem Unvaulted.alike {f : State → State × Response} (hf : Unvaulted f) (h : Alike s t) :
    Alike (f s).1 (f t).1 ∧ (f s).2 = (f t).2 := by
  have hvault : (f s).1.stores.vault = s.stores.vault :=
    congrArg (fun x => x.1.stores.vault) (hf s s.stores.vault)
  rw [h.eq_withVault, hf s t.stores.vault]
  exact ⟨⟨hvault.symm ▸ h.vault, rfl, rfl, rfl⟩, rfl⟩

/-- The secret that a request stores. -/
def posted (r : Request) : Option SecretRequest :=
  (decodeBody decodeSecret r).filter fun q => q.key ≠ [] && q.value ≠ []

/-- What a request does to the vault, but for the value that it stores. -/
structure SameVaultRequest (r r' : Request) : Prop where
  method : r'.method = r.method
  url : r'.url = r.url
  posted : Option.Rel (fun q q' => q.key = q'.key) (posted r) (posted r')

theorem SameVaultRequest.refl (r : Request) : SameVaultRequest r r where
  method := rfl
  url := rfl
  posted := by
    cases PortalServer.posted r with
    | none => exact .none
    | some q => exact .some rfl

theorem posted_eq {r : Request} {key x : Str} (h : decodeBody decodeSecret r = some ⟨key, x⟩)
    (hx : x ≠ []) : posted r = if key = [] then none else some ⟨key, x⟩ := by
  unfold posted
  rw [h]
  by_cases hkey : key = []
  · simp [hkey]
  · simp [hkey, hx]

theorem SameButValue.vault {r r' : Request} (h : SameButValue p r r') : SameVaultRequest r r' := by
  cases h with
  | same => exact .refl r
  | stored _ _ rest body body' value value' =>
    refine ⟨by rw [rest], by rw [rest], ?_⟩
    rw [posted_eq body value, posted_eq body' value']
    split
    · exact .none
    · exact .some rfl

theorem respond_deleteSecret (faults : PortalDeletes.Faults) (s : Stores) (key : Str) :
    PortalDeletes.respond faults s (.ok (.deleteSecret key)) =
      ({ s with vault := (s.vault.deleteSecret faults.vault key).1 },
        (s.vault.deleteSecret faults.vault key).2.elim ⟨204, []⟩
          fun _ => ⟨500, "\x7b\"error\":\"failed to delete secret\"\x7d".toList⟩) := by
  unfold PortalDeletes.respond StoreCall.exec
  dsimp only
  obtain ⟨v, _ | e⟩ := s.vault.deleteSecret faults.vault key <;> rfl

theorem executed_alike (h : Alike s t) (env : Env) (query : Str) :
    Alike (executed env s (PortalDeletes.handleVaultDelete query)).1
        (executed env t (PortalDeletes.handleVaultDelete query)).1 ∧
      (executed env s (PortalDeletes.handleVaultDelete query)).2 =
        (executed env t (PortalDeletes.handleVaultDelete query)).2 := by
  unfold PortalDeletes.handleVaultDelete
  dsimp only
  split
  · exact ⟨⟨h.vault, h.db, h.logs, h.keys⟩, rfl⟩
  · obtain ⟨hdelete, herr⟩ := h.vault.deleteSecret env.faults.vault
      (PortalDeletes.queryGet query "key".toList)
    unfold executed
    rw [respond_deleteSecret, respond_deleteSecret, ← herr]
    exact ⟨⟨hdelete, h.db, h.logs, h.keys⟩, rfl⟩

theorem SameButValue.cases {r r' : Request} (h : SameButValue p r r') :
    r' = r ∨ (route p.demo r = some .vault ∧ r'.authorization = r.authorization) := by
  cases h with
  | same => exact .inl rfl
  | stored hroute _ rest _ _ _ _ => exact .inr ⟨hroute, by rw [rest]⟩

theorem handleVault_alike {r r' : Request} (h : Alike s t) (hr : SameVaultRequest r r') (env : Env)
    (nonce : List Char) :
    Alike (handleVault env r s).1 (handleVault (env.withNonce nonce) r' t).1 ∧
      (handleVault env r s).2 = (handleVault (env.withNonce nonce) r' t).2 := by
  unfold handleVault
  rw [hr.method, hr.url]
  split
  · have hlist : listSecrets (env.withNonce nonce) t.stores.vault = listSecrets env s.stores.vault :=
      (h.vault.listSecrets env).symm
    rw [hlist]
    split
    · exact ⟨h, rfl⟩
    · exact ⟨h, rfl⟩
  · split
    · have hposted := hr.posted
      unfold posted at hposted
      generalize (decodeBody decodeSecret r).filter _ = q at hposted ⊢
      generalize (decodeBody decodeSecret r').filter _ = q' at hposted ⊢
      cases hposted with
      | none => exact ⟨h, rfl⟩
      | @some q q' hkey =>
        obtain ⟨hset, herr⟩ := h.vault.setSecret env.faults.vault env.nonce nonce q'.key q.value q'.value
        dsimp only [Env.withNonce]
        rw [hkey, ← herr]
        refine ⟨?_, ?_⟩
        · split
          · exact ⟨hset, h.db, h.logs, h.keys⟩
          · exact ⟨hset, h.db, h.logs, h.keys⟩
        · split <;> rfl
    · split
      · exact executed_alike h env _
      · exact ⟨h, rfl⟩

/-- The same request in the same environment, but for the nonce. -/
theorem serve_same (h : Alike s t) (env : Env) (nonce : List Char) (r : Request) :
    Alike (serve p env r s).1 (serve p (env.withNonce nonce) r t).1 ∧
      (serve p env r s).2 = (serve p (env.withNonce nonce) r t).2 := by
  by_cases hadmin : ForAdmin p r
  · cases hauth : p.authManager.authorizeAdmin p.sessions env.now r.authorization with
    | error d =>
      have hagain : p.authManager.authorizeAdmin p.sessions (env.withNonce nonce).now r.authorization =
        .error d := hauth
      rw [serve_denied hadmin hauth, serve_denied hadmin hagain]
      exact ⟨h, rfl⟩
    | ok claims =>
      obtain ⟨rt, hrt, hrta⟩ := hadmin
      have hagain : p.authManager.authorizeAdmin p.sessions (env.withNonce nonce).now r.authorization =
        .ok claims := hauth
      rw [serve_authorized hrt hrta hauth, serve_authorized hrt hrta hagain]
      dsimp only
      by_cases hvault : rt = .vault
      · rw [hvault]
        obtain ⟨hs, hresp⟩ := handleVault_alike h (.refl r) env nonce
        exact ⟨hs, congrArg (fun resp => (resp, none)) hresp⟩
      · obtain ⟨hs, hresp⟩ := (unvaulted_handleAdmin p env r hvault).alike h
        have hnonce : handleAdmin p (env.withNonce nonce) r t rt = handleAdmin p env r t rt := by
          cases rt with
          | vault => exact absurd rfl hvault
          | connections | endpoints | importOpenAPI | tokens | logs | settings | operationalStats
          | openAPI | login | ssoLogin | ssoCallback | mockTradeVolume | mockNonCashCollateral
          | frontend => rfl
        rw [hnonce]
        exact ⟨hs, congrArg (fun resp => (resp, none)) hresp⟩
  · unfold serve
    cases hrt : route p.demo r with
    | none => exact ⟨h, rfl⟩
    | some rt =>
      cases rt with
      | login | ssoLogin | mockTradeVolume | mockNonCashCollateral | frontend => exact ⟨h, rfl⟩
      | ssoCallback =>
        dsimp only
        rw [h.keys]
        exact ⟨⟨h.vault, h.db, h.logs, rfl⟩, rfl⟩
      | connections | endpoints | importOpenAPI | vault | logs | settings | operationalStats | tokens
      | openAPI => exact absurd ⟨_, hrt, rfl⟩ hadmin

theorem route_congr {r r' : Request} (demo : Bool) (h : r'.url = r.url) : route demo r' = route demo r := by
  unfold route
  rw [h]

/-- Two requests to the vault that have the same name in them. -/
theorem serve_vault {r r' : Request} (h : Alike s t) (env : Env) (nonce : List Char)
    (hroute : route p.demo r = some .vault) (hauth : r'.authorization = r.authorization)
    (hr : SameVaultRequest r r') :
    Alike (serve p env r s).1 (serve p (env.withNonce nonce) r' t).1 ∧
      (serve p env r s).2 = (serve p (env.withNonce nonce) r' t).2 := by
  have hroute' : route p.demo r' = some .vault := (route_congr p.demo hr.url).trans hroute
  cases hdone : p.authManager.authorizeAdmin p.sessions env.now r.authorization with
  | error d =>
    have hagain : p.authManager.authorizeAdmin p.sessions (env.withNonce nonce).now r'.authorization =
      .error d := hauth ▸ hdone
    rw [serve_denied ⟨_, hroute, rfl⟩ hdone, serve_denied ⟨_, hroute', rfl⟩ hagain]
    exact ⟨h, rfl⟩
  | ok claims =>
    have hagain : p.authManager.authorizeAdmin p.sessions (env.withNonce nonce).now r'.authorization =
      .ok claims := hauth ▸ hdone
    rw [serve_authorized hroute rfl hdone, serve_authorized hroute' rfl hagain]
    obtain ⟨hs, hresp⟩ := handleVault_alike h hr env nonce
    exact ⟨hs, congrArg (fun resp => (resp, none)) hresp⟩

theorem serve_twin (h : Alike s t) (htwin : Twin p a b) :
    Alike (serve p a.env a.request s).1 (serve p b.env b.request t).1 ∧
      (serve p a.env a.request s).2 = (serve p b.env b.request t).2 := by
  rw [htwin.env]
  obtain hsame | hstored := htwin.request.cases
  · rw [hsame]
    exact serve_same h a.env b.env.nonce a.request
  · obtain ⟨hroute, hauth⟩ := hstored
    exact serve_vault h a.env b.env.nonce hroute hauth htwin.request.vault

/-- What is seen of a request from outside. -/
def Exchanged.seen (e : Exchanged) : Response × Option Grant := (e.response, e.grant)

/-- In every two runs that differ in nothing but the values of secrets, those that are stored
before and those that are stored on the way, all answers are the same. -/
theorem values_unseen (h : Alike s t) {as bs : List Action} (htwins : List.Forall₂ (Twin p) as bs) :
    (Run.events (step p) s as).map Exchanged.seen = (Run.events (step p) t bs).map Exchanged.seen := by
  have hstep (s t : State) (a b : Action) (hs : Alike s t) (ha : Twin p a b) :
      Alike (step p s a).1 (step p t b).1 ∧
        List.Forall₂ (fun e e' => e.seen = e'.seen) (step p s a).2 (step p t b).2 := by
    obtain ⟨hnext, hanswer⟩ := serve_twin hs ha
    exact ⟨hnext, .cons hanswer .nil⟩
  have hrel := (Run.forall₂_final_events hstep htwins s t h).2
  rw [← List.forall₂_eq_eq_eq]
  exact List.forall₂_map_left_iff.mpr (List.forall₂_map_right_iff.mpr hrel)

/-- A secret is stored a minute after the login. -/
def secretAction (value : String) : Action := ⟨plainEnv (60 * Auth.second),
  requestTo "POST".toList "/api/vault".toList ("Bearer ".toList ++ adminToken)
    ("\x7b\"key\":\"billing\",\"value\":\"".toList ++ value.toList ++ "\"\x7d".toList)⟩

/-- A vault that has a secret under the key already. -/
def sealedState (key value : String) : State :=
  ⟨⟨.postgres key.toList [("ledger".toList, ⟨key.toList, [], value.toList⟩)], .empty false⟩, [], []⟩

theorem values_unseen_login :
    (Run.events (step localPortal) (sealedState "k1" "old") [loginAction, secretAction "x1"]).map
        Exchanged.seen =
      (Run.events (step localPortal) (sealedState "k2" "new") [loginAction, secretAction "x2"]).map
        Exchanged.seen := by
  have hfirst : decodeBody decodeSecret (secretAction "x1").request =
      some ⟨"billing".toList, "x1".toList⟩ := by decide +kernel
  have hsecond : decodeBody decodeSecret (secretAction "x2").request =
      some ⟨"billing".toList, "x2".toList⟩ := by decide +kernel
  have hsecret : SameButValue localPortal (secretAction "x1").request (secretAction "x2").request :=
    .stored (by decide +kernel) rfl rfl hfirst hsecond (by decide) (by decide)
  have htwins : List.Forall₂ (Twin localPortal) [loginAction, secretAction "x1"]
      [loginAction, secretAction "x2"] := .cons ⟨rfl, .same _⟩ (.cons ⟨rfl, hsecret⟩ .nil)
  have halike : Alike (sealedState "k1" "old") (sealedState "k2" "new") := ⟨.postgres rfl, rfl, rfl, rfl⟩
  exact values_unseen halike htwins

end Janus.PortalServer
