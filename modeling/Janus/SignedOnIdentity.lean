import Janus.PortalSessions

/-!
# Who is signed on

The portal caches the keys of its issuer. In every run, a session that is granted over the
identity provider is for the user of an ID token that the provider gave for the code of the
callback, for this portal, unexpired, and signed with a key that the issuer published less than
five minutes before (`session_identity`).
-/

namespace Janus.PortalServer

set_option autoImplicit false

open OAuth (KeySet MapClaims CacheEntry Unexpired HasAudience)
open Startup (Config)

section Keys

variable {c : Config} {lib : OAuth.JWT} {idp : IdentityProvider} {now : Nat} {cache : KeyCache}

/-- The keys came from the issuer: now, or not long ago. -/
def FromIssuer (idp : IdentityProvider) (now : Nat) (issuer : Str) (cache : KeyCache) (keys : KeySet) : Prop :=
  fetchIssuerKeys idp issuer = some keys ∨
    ∃ e, lookup issuer cache = some e ∧ now < e.fetchedAt + OAuth.jwksCacheTTL ∧ keys = e.keys

/-- What a lookup of the keys leaves in the cache. -/
def Refreshed (idp : IdentityProvider) (now : Nat) (issuer : Str) (cache cache' : KeyCache) : Prop :=
  cache' = cache ∨ ∃ keys, fetchIssuerKeys idp issuer = some keys ∧ cache' = setMember issuer ⟨keys, now⟩ cache

theorem fetchJWKS_spec (idp : IdentityProvider) (now : Nat) (issuer : Str) (cache : KeyCache) :
    Refreshed idp now (OAuth.trimSlash issuer) cache (fetchJWKS idp now issuer cache).2 ∧
      ∀ keys, (fetchJWKS idp now issuer cache).1 = some keys →
        FromIssuer idp now (OAuth.trimSlash issuer) cache keys := by
  unfold fetchJWKS
  dsimp only
  split
  · exact ⟨.inl rfl, fun _ h => nomatch h⟩
  · cases hlive : (lookup (OAuth.trimSlash issuer) cache).filter fun e =>
        now - e.fetchedAt < OAuth.jwksCacheTTL with
    | some e =>
      obtain ⟨hentry, hfresh⟩ := Option.filter_eq_some_iff.mp hlive
      refine ⟨.inl rfl, ?_⟩
      intro keys hkeys
      have hage : now - e.fetchedAt < OAuth.jwksCacheTTL := by simpa using hfresh
      exact .inr ⟨e, hentry, by omega, (Option.some.inj hkeys).symm⟩
    | none =>
      cases hfetch : fetchIssuerKeys idp (OAuth.trimSlash issuer) with
      | none => exact ⟨.inl rfl, fun _ h => nomatch h⟩
      | some keys => exact ⟨.inr ⟨keys, hfetch, rfl⟩, fun keys' hkeys' => .inl (hkeys' ▸ hfetch)⟩

theorem verifyIDToken_cache (raw nonce : Str) :
    (verifyIDToken c lib idp now raw nonce cache).2 = (fetchJWKS idp now c.oidcIssuer cache).2 := by
  unfold verifyIDToken
  obtain ⟨_ | keys, cache'⟩ := fetchJWKS idp now c.oidcIssuer cache
  · rfl
  · dsimp only
    cases lib.parseWithClaims raw (idTokenKey keys) idTokenOptions now <;> rfl

/-- An ID token that the portal accepts. -/
structure Vouched (c : Config) (lib : OAuth.JWT) (now : Nat) (idToken : Str) (keys : KeySet)
    (claims : MapClaims) : Prop where
  issuer : OAuth.trimSlash (OAuth.stringClaim "iss" claims) = OAuth.trimSlash c.oidcIssuer
  audience : HasAudience c.oidcClientID claims
  unexpired : Unexpired now claims
  signed : ∃ alg ∈ OAuth.signingAlgs, ∃ kid key, (kid, key) ∈ keys ∧ lib.verifies idToken alg key = true

theorem idTokenKey_ok {keys : KeySet} {token : OAuth.Token} {key : OAuth.PublicKey}
    (h : idTokenKey keys token = .ok key) : ∃ kid, (kid, key) ∈ keys := by
  unfold idTokenKey at h
  split at h
  · cases h
  · dsimp only at h
    split at h
    · split at h
      · cases h
        exact ⟨_, List.mem_singleton_self _⟩
      · cases h
    · cases hk : lookup (OAuth.stringClaim "kid" token.header) keys with
      | none =>
        rw [hk] at h
        cases h
      | some k =>
        rw [hk] at h
        cases h
        exact ⟨_, mem_of_lookup hk⟩

theorem verifyIDToken_ok (hlib : lib.Enforces) {idToken nonce : Str} {claims : MapClaims}
    (h : (verifyIDToken c lib idp now idToken nonce cache).1 = some claims) :
    ∃ keys, FromIssuer idp now (OAuth.trimSlash c.oidcIssuer) cache keys ∧
      Vouched c lib now idToken keys claims := by
  obtain ⟨_, hfrom⟩ := fetchJWKS_spec idp now c.oidcIssuer cache
  unfold verifyIDToken at h
  generalize fetchJWKS idp now c.oidcIssuer cache = fetched at h hfrom
  obtain ⟨_ | keys, cache'⟩ := fetched
  · cases h
  · dsimp only at h
    cases hp : lib.parseWithClaims idToken (idTokenKey keys) idTokenOptions now with
    | error e =>
      rw [hp] at h
      cases h
    | ok raw =>
      rw [hp] at h
      dsimp only at h
      split at h
      · rename_i hfits
        cases h
        simp only [idTokenFits, Bool.and_eq_true, decide_eq_true_eq] at hfits
        obtain ⟨token, key, hacc⟩ := hlib _ _ _ _ _ hp
        obtain ⟨kid, hkid⟩ := idTokenKey_ok hacc.keyed
        exact ⟨keys, hfrom keys rfl, hfits.1.1, OAuth.hasAudience_of_audienceContains hfits.1.2,
          hacc.unexpired rfl, token.method.alg, hacc.method, kid, key, hkid, hacc.signed⟩
      · cases h

end Keys

section Callback

variable {p : Portal} {env : Env} {r : Request} {s : State}

/-- The token that is exchanged for the code of a callback, and the session of its user. -/
structure SessionOf (p : Portal) (env : Env) (r : Request) (keys : KeySet) (g : Grant) : Prop where
  vouched : ∃ idToken claims, exchange p.config env.idp r (r.query "code") = .ok idToken ∧
    Vouched p.config p.idTokens env.now idToken keys claims ∧ g.username = ssoUsername claims

theorem signOn_session (hlib : p.idTokens.Enforces) {idToken : Str} {cache : KeyCache} {g : Grant}
    (h : (signOn p.config p.authManager p.idTokens p.sessions env.idp env.now idToken cache).1.2 = some g) :
    ∃ keys claims, FromIssuer env.idp env.now (OAuth.trimSlash p.config.oidcIssuer) cache keys ∧
      Vouched p.config p.idTokens env.now idToken keys claims ∧ g.username = ssoUsername claims := by
  unfold signOn at h
  cases hv : verifyIDToken p.config p.idTokens env.idp env.now idToken [] cache with
  | mk verified cache' =>
    rw [hv] at h
    cases verified with
    | none => cases h
    | some claims =>
      obtain ⟨keys, hfrom, hvouched⟩ := verifyIDToken_ok hlib (congrArg Prod.fst hv)
      refine ⟨keys, claims, hfrom, hvouched, ?_⟩
      dsimp only at h
      split at h
      · cases h
      · cases h
        rfl

theorem handleSSOCallback_session (hlib : p.idTokens.Enforces) {cache : KeyCache} {g : Grant}
    (h : (handleSSOCallback p.config p.authManager p.idTokens p.sessions env.idp env.now r cache).1.2 =
      some g) :
    ∃ keys, FromIssuer env.idp env.now (OAuth.trimSlash p.config.oidcIssuer) cache keys ∧
      SessionOf p env r keys g := by
  unfold handleSSOCallback at h
  split at h
  · cases h
  · split at h
    · cases h
    · split at h
      · cases h
      · cases hx : exchange p.config env.idp r (r.query "code") with
        | error e =>
          rw [hx] at h
          cases h
        | ok idToken =>
          rw [hx] at h
          obtain ⟨keys, claims, hfrom, hvouched, huser⟩ := signOn_session hlib h
          exact ⟨keys, hfrom, ⟨idToken, claims, hx, hvouched, huser⟩⟩

theorem handleSSOCallback_cache (now : Nat) (cache : KeyCache) :
    Refreshed env.idp now (OAuth.trimSlash p.config.oidcIssuer) cache
      (handleSSOCallback p.config p.authManager p.idTokens p.sessions env.idp now r cache).2 := by
  unfold handleSSOCallback
  split
  · exact .inl rfl
  · split
    · exact .inl rfl
    · split
      · exact .inl rfl
      · cases exchange p.config env.idp r (r.query "code") with
        | error e => exact .inl rfl
        | ok idToken =>
          have hcache : (verifyIDToken p.config p.idTokens env.idp now idToken [] cache).2 =
              (fetchJWKS env.idp now p.config.oidcIssuer cache).2 := verifyIDToken_cache idToken []
          have hspec := (fetchJWKS_spec env.idp now p.config.oidcIssuer cache).1
          rw [← hcache] at hspec
          dsimp only
          unfold signOn
          generalize verifyIDToken p.config p.idTokens env.idp now idToken [] cache = verified at hspec ⊢
          obtain ⟨_ | claims, cache'⟩ := verified
          · exact hspec
          · dsimp only
            split <;> exact hspec

theorem keys_committed (s : State) (result : Except Storage.StoreError Storage.DB) (resp : Response) :
    (committed s result resp).1.keys = s.keys := by
  cases result <;> rfl

theorem keys_handleAdmin (p : Portal) (env : Env) (r : Request) (s : State) (rt : Route) :
    (handleAdmin p env r s rt).1.keys = s.keys := by
  cases rt with
  | connections =>
    simp only [handleAdmin, handleConnections]
    split
    · split <;> rfl
    · split
      · split
        · rfl
        · exact keys_committed s _ _
      · split
        · split
          · rfl
          · exact keys_committed s _ _
        · rfl
  | endpoints =>
    simp only [handleAdmin, handleEndpoints]
    split
    · split <;> rfl
    · split
      · split
        · rfl
        · exact keys_committed s _ _
      · split
        · split
          · rfl
          · exact keys_committed s _ _
        · rfl
  | vault =>
    simp only [handleAdmin, handleVault]
    split
    · split <;> rfl
    · split
      · split
        · rfl
        · split <;> rfl
      · split <;> rfl
  | tokens =>
    simp only [handleAdmin, handleTokens]
    split
    · split <;> rfl
    · split
      · split
        · rfl
        · split
          · rfl
          · exact keys_committed s _ _
      · split <;> rfl
  | importOpenAPI | logs | settings | operationalStats | openAPI | login | ssoLogin | ssoCallback
  | mockTradeVolume | mockNonCashCollateral | frontend => rfl

/-- Only a callback fetches keys. -/
theorem serve_keys (p : Portal) (env : Env) (r : Request) (s : State) :
    Refreshed env.idp env.now (OAuth.trimSlash p.config.oidcIssuer) s.keys (serve p env r s).1.keys := by
  by_cases hadmin : ForAdmin p r
  · cases ha : p.authManager.authorizeAdmin p.sessions env.now r.authorization with
    | error d =>
      rw [serve_denied hadmin ha]
      exact .inl rfl
    | ok claims =>
      obtain ⟨rt, hrt, hrta⟩ := hadmin
      rw [serve_authorized hrt hrta ha]
      exact .inl (keys_handleAdmin p env r s rt)
  · unfold serve
    cases hrt : route p.demo r with
    | none => exact .inl rfl
    | some rt =>
      cases rt with
      | ssoCallback => exact handleSSOCallback_cache env.now s.keys
      | login | ssoLogin | mockTradeVolume | mockNonCashCollateral | frontend => exact .inl rfl
      | connections | endpoints | importOpenAPI | vault | logs | settings | operationalStats | tokens
      | openAPI => exact absurd ⟨_, hrt, rfl⟩ hadmin

theorem serve_session (hlib : p.idTokens.Enforces) {g : Grant} (h : (serve p env r s).2.2 = some g)
    (hroute : route p.demo r = some .ssoCallback) :
    ∃ keys, FromIssuer env.idp env.now (OAuth.trimSlash p.config.oidcIssuer) s.keys keys ∧
      SessionOf p env r keys g := by
  unfold serve at h
  rw [hroute] at h
  exact handleSSOCallback_session hlib h

end Callback

/-- The portal with the requests that it has served, each in its environment. -/
structure Attended where
  state : State
  past : List Action

/-- A session that was granted over the identity provider, with the request that it answers. -/
structure Granted where
  action : Action
  grant : Grant

def Attended.act (p : Portal) (w : Attended) (a : Action) : Attended × List Granted :=
  let served := serve p a.env a.request w.state
  (⟨served.1, w.past ++ [a]⟩,
    if route p.demo a.request = some .ssoCallback then served.2.2.toList.map fun g => ⟨a, g⟩ else [])

/-- The issuer published the keys in one of the requests, less than five minutes before. -/
def Published (p : Portal) (past : List Action) (now : Nat) (keys : KeySet) : Prop :=
  ∃ a ∈ past, fetchIssuerKeys a.env.idp (OAuth.trimSlash p.config.oidcIssuer) = some keys ∧
    now < a.env.now + OAuth.jwksCacheTTL

/-- The entry of the issuer in the cache is one that it published. -/
def CacheSound (p : Portal) (w : Attended) : Prop :=
  ∀ e, lookup (OAuth.trimSlash p.config.oidcIssuer) w.state.keys = some e →
    ∃ a ∈ w.past, fetchIssuerKeys a.env.idp (OAuth.trimSlash p.config.oidcIssuer) = some e.keys ∧
      a.env.now = e.fetchedAt

section Runs

variable {p : Portal} {w : Attended} {a : Action}

theorem CacheSound.act (h : CacheSound p w) : CacheSound p (w.act p a).1 := by
  intro e he
  rcases serve_keys p a.env a.request w.state with hsame | ⟨keys, hfetch, hset⟩
  · have hold : lookup (OAuth.trimSlash p.config.oidcIssuer) w.state.keys = some e := hsame ▸ he
    obtain ⟨a', ha', hrest⟩ := h e hold
    exact ⟨a', List.mem_append_left _ ha', hrest⟩
  · have hnew : lookup (OAuth.trimSlash p.config.oidcIssuer) (w.act p a).1.state.keys =
        some ⟨keys, a.env.now⟩ := by
      unfold Attended.act
      dsimp only
      rw [hset, lookup_setMember_self]
    cases he.symm.trans hnew
    exact ⟨a, List.mem_append_right _ (List.mem_singleton_self a), hfetch, rfl⟩

theorem published_of_fromIssuer (h : CacheSound p w) {keys : KeySet}
    (hfrom : FromIssuer a.env.idp a.env.now (OAuth.trimSlash p.config.oidcIssuer) w.state.keys keys) :
    Published p (w.past ++ [a]) a.env.now keys := by
  rcases hfrom with hfetch | ⟨e, he, hage, rfl⟩
  · have hlive : a.env.now < a.env.now + OAuth.jwksCacheTTL := Nat.lt_add_of_pos_right (by decide)
    exact ⟨a, List.mem_append_right _ (List.mem_singleton_self a), hfetch, hlive⟩
  · obtain ⟨a', ha', hkeys, hat⟩ := h e he
    exact ⟨a', List.mem_append_left _ ha', hkeys, hat ▸ hage⟩

/-- In every run, a session over the identity provider is for the user of an ID token that the
provider gave for the code of the callback, signed with a key that its issuer had published. -/
theorem session_identity (hlib : p.idTokens.Enforces) (s : State) (hs : s.keys = [])
    (as : List Action) : ∀ r ∈ Run.trace (Attended.act p) ⟨s, []⟩ as,
      ∃ keys, Published p (r.1.past ++ [r.2.action]) r.2.action.env.now keys ∧
        SessionOf p r.2.action.env r.2.action.request keys r.2.grant := by
  have hinit : CacheSound p ⟨s, []⟩ := by
    intro e he
    dsimp only at he
    rw [hs] at he
    cases he
  have hgood (w : Attended) (a : Action) (hw : CacheSound p w) (_ : True) :
      ∀ r ∈ (w.act p a).2, ∃ keys, Published p (w.past ++ [r.action]) r.action.env.now keys ∧
        SessionOf p r.action.env r.action.request keys r.grant := by
    intro r hr
    unfold Attended.act at hr
    dsimp only at hr
    split at hr
    · rename_i hroute
      obtain ⟨g, hg, rfl⟩ := List.mem_map.mp hr
      obtain ⟨keys, hfrom, hsession⟩ := serve_session hlib (Option.mem_toList.mp hg) hroute
      exact ⟨keys, published_of_fromIssuer hw hfrom, hsession⟩
    · cases hr
  exact Run.good_trace (fun w a hw _ => hw.act) hgood as ⟨s, []⟩ hinit
    (Run.along_of_forall (fun _ _ => trivial) as _)

end Runs

/-- An identity provider that exchanges every code for the same token. -/
def oneUserProvider : IdentityProvider where
  post _ _ := .ok ⟨200, "\x7b\"id_token\":\"".toList ++ OAuth.tokenA ++ "\"\x7d".toList⟩
  get url :=
    if url = OAuth.issuerA ++ "/.well-known/openid-configuration".toList then
      .ok ⟨200, OAuth.discoveryDocument OAuth.issuerA⟩
    else .ok ⟨200, OAuth.keysDocument OAuth.modulusA⟩

def oneUserPortal : Portal := portalOf fun k => lookup k
  [("OIDC_ISSUER".toList, OAuth.issuerA ++ ['/']), ("OIDC_CLIENT_ID".toList, "https://g/mcp".toList)]

/-- A callback after its login; the keys that a first one fetches serve the second. -/
def callbackAction (now : Nat) : Action :=
  ⟨{ plainEnv now with idp := oneUserProvider },
    { requestTo "GET".toList "/api/auth/sso/callback?code=c&state=AQID".toList [] [] with
      stateCookie := some "AQID".toList }⟩

def callbacks : List Action := [callbackAction OAuth.startTime, callbackAction (OAuth.startTime + 60 * Auth.second)]

theorem session_identity_callbacks :
    (Run.trace (Attended.act oneUserPortal) ⟨emptyState, []⟩ callbacks).length = 2 ∧
      ∀ r ∈ Run.trace (Attended.act oneUserPortal) ⟨emptyState, []⟩ callbacks,
        ∃ keys, Published oneUserPortal (r.1.past ++ [r.2.action]) r.2.action.env.now keys ∧
          SessionOf oneUserPortal r.2.action.env r.2.action.request keys r.2.grant :=
  ⟨by decide +kernel, session_identity OAuth.rs256_enforces emptyState rfl callbacks⟩

end Janus.PortalServer
