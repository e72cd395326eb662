import Janus.Lib.Sha256
import Janus.OAuthValidator

/-!
# The keys of an issuer

The issuer that picks the keys is read from the token before anything is verified, and the
keys are shared by all calls. In every run, whatever the tokens are and the servers answer,
the key that a token is accepted under was published for the issuer that the token names.
-/

namespace Janus.OAuth

set_option autoImplicit false

/-- The keys were published where a discovery document of the issuer says. -/
def Fetch.Gives (f : Fetch) (keys : KeySet) : Prop :=
  ∃ i, ∃ wellKnown ∈ wellKnownPaths, ∃ jwksURI,
    fetchDiscoveryJWKSURI (f.answers i (f.issuer ++ wellKnown)) (f.issuer ++ wellKnown) = .ok jwksURI ∧
      Text.hasPrefix jwksURI https = true ∧
      fetchJWKSKeys (f.answers wellKnownPaths.length jwksURI) = .ok keys

theorem discoverFrom_ok {answers : Answers} {issuer lastErr uri : Str} {paths : List Str} {i : Nat}
    (h : discoverFrom answers issuer i lastErr paths = .ok uri) :
    ∃ j, ∃ wellKnown ∈ paths,
      fetchDiscoveryJWKSURI (answers j (issuer ++ wellKnown)) (issuer ++ wellKnown) = .ok uri := by
  induction paths generalizing i lastErr with
  | nil => cases h
  | cons wellKnown rest ih =>
    rw [discoverFrom] at h
    cases hf : fetchDiscoveryJWKSURI (answers i (issuer ++ wellKnown)) (issuer ++ wellKnown) with
    | error e =>
      simp only [hf] at h
      obtain ⟨j, w, hw, hj⟩ := ih h
      exact ⟨j, w, List.mem_cons_of_mem wellKnown hw, hj⟩
    | ok found =>
      simp only [hf, Except.ok.injEq] at h
      exact ⟨i, wellKnown, List.mem_cons_self, h ▸ hf⟩

theorem gives_of_fetchKeys {f : Fetch} {keys : KeySet} (h : fetchKeys f.answers f.issuer = .ok keys) :
    f.Gives keys := by
  unfold fetchKeys at h
  cases hd : discoverJWKSURI f.answers f.issuer with
  | error e =>
    simp only [hd] at h
    cases h
  | ok jwksURI =>
    simp only [hd] at h
    obtain ⟨i, wellKnown, hw, hi⟩ := discoverFrom_ok hd
    split at h
    · rename_i hhttps
      exact ⟨i, wellKnown, hw, jwksURI, hi, hhttps, h⟩
    · cases h

theorem start_cases (lib : JWT) (v : Validator) (now : Nat) (tokenString : Str) :
    (∃ e, v.start lib now tokenString = .refused e) ∨
      (∃ iss, issuerTrusted v.config iss = true ∧ v.start lib now tokenString = .missed iss) ∨
        ∃ iss e, issuerTrusted v.config iss = true ∧ lookup (trimSlash iss) v.jwksCache = some e ∧
          now - e.fetchedAt < jwksCacheTTL ∧ v.start lib now tokenString = .cached iss e.keys := by
  unfold Validator.start
  cases lib.parseUnverified tokenString with
  | error e => exact Or.inl ⟨_, rfl⟩
  | ok unverified =>
    dsimp only
    split
    · exact Or.inl ⟨_, rfl⟩
    · rename_i htrusted
      have htrusted : issuerTrusted v.config (stringClaim "iss" unverified.claims) = true := by
        simpa using htrusted
      split
      · exact Or.inl ⟨_, rfl⟩
      · cases hc : v.cachedKeys (trimSlash (stringClaim "iss" unverified.claims)) now with
        | none => exact Or.inr (Or.inl ⟨_, htrusted, rfl⟩)
        | some keys =>
          obtain ⟨e, he, rfl⟩ := Option.map_eq_some_iff.mp hc
          obtain ⟨hentry, hfresh⟩ := Option.filter_eq_some_iff.mp he
          exact Or.inr (Or.inr ⟨_, e, htrusted, hentry, by simpa using hfresh, rfl⟩)

theorem keyfunc_ok {keys : KeySet} {token : Token} {key : PublicKey}
    (h : keyfunc keys token = .ok key) : token.method.family = .rsa ∧ ∃ kid, (kid, key) ∈ keys := by
  unfold keyfunc at h
  split at h
  · cases h
  · rename_i hrsa
    refine ⟨not_not.mp hrsa, ?_⟩
    dsimp only at h
    split at h
    · split at h
      · rename_i kid k
        cases h
        exact ⟨kid, List.mem_cons_self⟩
      · cases h
    · cases hk : lookup (stringClaim "kid" token.header) keys with
      | none =>
        simp only [hk] at h
        cases h
      | some k =>
        simp only [hk, Except.ok.injEq] at h
        exact ⟨_, h ▸ mem_of_lookup hk⟩

/-- The `aud` claim is the resource or an array with it. -/
def HasAudience (resourceURI : Str) (claims : MapClaims) : Prop :=
  lookup "aud".toList claims = some (.str resourceURI) ∨
    ∃ vs, lookup "aud".toList claims = some (.arr vs) ∧ Json.str resourceURI ∈ vs

theorem hasAudience_of_audienceContains {resourceURI : Str} {claims : MapClaims}
    (h : audienceContains (lookup "aud".toList claims) resourceURI = true) :
    HasAudience resourceURI claims := by
  unfold audienceContains at h
  split at h
  · cases h
  · split at h
    · rename_i v hv
      exact Or.inl (hv.trans (by rw [of_decide_eq_true h]))
    · rename_i vs hv
      obtain ⟨a, ha, he⟩ := List.any_eq_true.mp h
      exact Or.inr ⟨vs, hv, of_decide_eq_true he ▸ ha⟩
    · cases h

/-- A token that is accepted with a set of keys. -/
structure Verified (lib : JWT) (c : Config) (tokenString : Str) (keys : KeySet) (now : Nat)
    (claims : Claims) : Prop where
  issuer : lookup "iss".toList claims.raw = some (.str claims.issuer)
  signed : ∃ alg ∈ signingAlgs, ∃ kid key, (kid, key) ∈ keys ∧ lib.verifies tokenString alg key = true
  unexpired : Unexpired now claims.raw
  audience : HasAudience c.resourceURI claims.raw

theorem verified_of_verify {lib : JWT} (hlib : lib.Enforces) {c : Config} {tokenString iss : Str}
    {keys : KeySet} {now : Nat} {claims : Claims} (hiss : iss ≠ [])
    (h : verify lib c tokenString iss keys now = .ok claims) :
    claims.issuer = iss ∧ Verified lib c tokenString keys now claims := by
  unfold verify at h
  cases hp : lib.parseWithClaims tokenString (keyfunc keys) (optionsFor iss) now with
  | error e =>
    simp only [hp] at h
    cases h
  | ok raw =>
    simp only [hp] at h
    split at h
    · cases h
    · rename_i haud
      cases h
      obtain ⟨token, key, ha⟩ := hlib _ _ _ _ _ hp
      obtain ⟨_, kid, hkid⟩ := keyfunc_ok ha.keyed
      have haud : audienceContains (lookup "aud".toList raw) c.resourceURI = true := by
        simpa using haud
      exact ⟨rfl, ha.issuer hiss, ⟨token.method.alg, ha.method, kid, key, hkid, ha.signed⟩,
        ha.unexpired rfl, hasAudience_of_audienceContains haud⟩

/-- The steps of a call that nothing interrupts. -/
def wholeCall (now : Nat) (answers : Answers) (tokenString : Str) : List Action :=
  [.start 0 now tokenString, .fetch 0 now answers, .verify 0 now]

/-- Without interruption the steps of a call do what `ValidateToken` does. -/
theorem wholeCall_eq (lib : JWT) (v : Validator) (now : Nat) (answers : Answers) (tokenString : Str) :
    (Run.events (Service.act lib) (newService v now) (wholeCall now answers tokenString)).map
        Returned.result = [(v.validateToken lib now answers tokenString).1] ∧
      (Run.final (Service.act lib) (newService v now) (wholeCall now answers tokenString)).validator =
        (v.validateToken lib now answers tokenString).2 := by
  simp only [wholeCall, Run.events, Run.trace, Run.final, List.append_nil, Service.act, newService]
  cases hs : v.start lib now tokenString with
  | refused e =>
    simp [Validator.validateToken, Service.startCall, Service.fetchFor, Service.verifyFor,
      Service.setCall, hs]
  | cached iss keys =>
    simp [Validator.validateToken, Service.startCall, Service.fetchFor, Service.verifyFor,
      Service.setCall, hs]
  | missed iss =>
    cases hf : fetchKeys answers (trimSlash iss) with
    | error e =>
      simp [Validator.validateToken, Service.startCall, Service.fetchFor, Service.verifyFor,
        Service.setCall, hs, hf]
    | ok keys =>
      simp [Validator.validateToken, Service.startCall, Service.fetchFor, Service.verifyFor,
        Service.setCall, hs, hf, Validator.store]

def Trusted (c : Config) (iss : Str) : Prop :=
  Text.hasPrefix iss https = true ∧ ∃ a ∈ c.authorizationServers, trimSlash a = trimSlash iss

theorem issuerTrusted_iff (c : Config) (iss : Str) : issuerTrusted c iss = true ↔ Trusted c iss := by
  unfold issuerTrusted Trusted
  by_cases hp : Text.hasPrefix iss https = true
  · have hne : iss ≠ [] := by
      rintro rfl
      revert hp
      decide
    simp [hp, hne]
  · simp [hp]

/-- Keys that a fetch for the issuer gave, no longer ago at the lookup than the cache allows. -/
def Current (fetches : List Fetch) (lookedUpAt : Nat) (iss : Str) (keys : KeySet) : Prop :=
  ∃ f ∈ fetches, f.issuer = trimSlash iss ∧ f.Gives keys ∧ lookedUpAt < f.fetchedAt + jwksCacheTTL

def Phase.Justified (c : Config) (s : Service) (lookedUpAt : Nat) : Phase → Prop
  | .fetching iss => Trusted c iss ∧ lookedUpAt ≤ s.clock
  | .verifying iss keys => Trusted c iss ∧ Current s.fetches lookedUpAt iss keys
  | .returned => True

/-- The keys in the cache and in the hands of the calls come from fetches for their issuers. -/
structure Sound (c : Config) (s : Service) : Prop where
  config : s.validator.config = c
  cached : ∀ m ∈ s.validator.jwksCache, ∃ f ∈ s.fetches, f.issuer = m.1 ∧ f.Gives m.2.keys ∧
    f.fetchedAt = m.2.fetchedAt
  calls : ∀ k call, s.calls k = some call → call.phase.Justified c s call.lookedUpAt

theorem Phase.Justified.mono {c : Config} {s s' : Service} {lookedUpAt : Nat} {phase : Phase}
    (h : phase.Justified c s lookedUpAt) (hclock : s.clock ≤ s'.clock)
    (hfetches : ∀ f ∈ s.fetches, f ∈ s'.fetches) : phase.Justified c s' lookedUpAt := by
  cases phase with
  | fetching iss => exact ⟨h.1, h.2.trans hclock⟩
  | verifying iss keys =>
    obtain ⟨htrusted, f, hf, hrest⟩ := h
    exact ⟨htrusted, f, hfetches f hf, hrest⟩
  | returned => trivial

/-- A step that changes one call and may add to the fetches and to the cache. -/
theorem Sound.of_setCall {c : Config} {s s' : Service} (h : Sound c s) {k : Nat} {call : Call}
    (hconfig : s'.validator.config = s.validator.config) (hclock : s.clock ≤ s'.clock)
    (hfetches : ∀ f ∈ s.fetches, f ∈ s'.fetches)
    (hcalls : s'.calls = (s.setCall k call).calls)
    (hcall : call.phase.Justified c s' call.lookedUpAt)
    (hcached : ∀ m ∈ s'.validator.jwksCache, m ∈ s.validator.jwksCache ∨
      ∃ f ∈ s'.fetches, f.issuer = m.1 ∧ f.Gives m.2.keys ∧ f.fetchedAt = m.2.fetchedAt) :
    Sound c s' := by
  refine ⟨hconfig.trans h.config, ?_, ?_⟩
  · intro m hm
    rcases hcached m hm with hold | hnew
    · obtain ⟨f, hf, hrest⟩ := h.cached m hold
      exact ⟨f, hfetches f hf, hrest⟩
    · exact hnew
  · intro j call' hj
    rw [hcalls] at hj
    by_cases hjk : j = k
    · simp only [Service.setCall, if_pos hjk, Option.some.injEq] at hj
      exact hj ▸ hcall
    · simp only [Service.setCall, if_neg hjk] at hj
      exact (h.calls j call' hj).mono hclock hfetches

theorem Sound.tick {c : Config} {s : Service} (h : Sound c s) {now : Nat} (hclock : s.clock ≤ now) :
    Sound c { s with clock := now } :=
  ⟨h.config, h.cached, fun k call hk => (h.calls k call hk).mono hclock fun _ hf => hf⟩

theorem Sound.startCall {c : Config} {s : Service} (h : Sound c s) (lib : JWT) (k : Nat)
    (tokenString : Str) : Sound c (s.startCall lib k s.clock tokenString).1 := by
  unfold Service.startCall
  cases s.calls k with
  | some _ => exact h
  | none =>
    dsimp only
    rcases start_cases lib s.validator s.clock tokenString with ⟨e, he⟩ | ⟨iss, htrusted, he⟩ | ⟨iss, e, htrusted, hentry, hfresh, he⟩
    · rw [he]
      exact h.of_setCall rfl (Nat.le_refl _) (fun _ hf => hf) rfl trivial fun _ hm => Or.inl hm
    · rw [he, h.config] at *
      rw [issuerTrusted_iff] at htrusted
      exact h.of_setCall rfl (Nat.le_refl _) (fun _ hf => hf) rfl ⟨htrusted, Nat.le_refl _⟩
        fun _ hm => Or.inl hm
    · rw [he, h.config] at *
      rw [issuerTrusted_iff] at htrusted
      obtain ⟨f, hf, hissuer, hgives, htime⟩ := h.cached _ (mem_of_lookup hentry)
      have hcurrent : s.clock < f.fetchedAt + jwksCacheTTL := by
        have hsame : f.fetchedAt = e.fetchedAt := htime
        omega
      exact h.of_setCall rfl (Nat.le_refl _) (fun _ hf => hf) rfl
        ⟨htrusted, f, hf, hissuer, hgives, hcurrent⟩ fun _ hm => Or.inl hm

theorem Sound.fetchFor {c : Config} {s : Service} (h : Sound c s) (k : Nat) (answers : Answers) :
    Sound c (s.fetchFor k s.clock answers).1 := by
  unfold Service.fetchFor
  split
  · rename_i tokenString lookedUpAt iss hcall
    obtain ⟨htrusted, hlooked⟩ := h.calls k _ hcall
    cases hf : fetchKeys answers (trimSlash iss) with
    | error e =>
      exact h.of_setCall rfl (Nat.le_refl _) (fun _ hm => hm) rfl trivial fun _ hm => Or.inl hm
    | ok keys =>
      let f : Fetch := ⟨trimSlash iss, answers, s.clock⟩
      have hgives : f.Gives keys := gives_of_fetchKeys hf
      have hmem : f ∈ s.fetches ++ [f] := List.mem_append_right _ List.mem_cons_self
      have hcurrent : lookedUpAt < s.clock + jwksCacheTTL :=
        Nat.lt_of_le_of_lt hlooked (Nat.lt_add_of_pos_right (by decide))
      refine h.of_setCall rfl (Nat.le_refl _) (fun _ hm => List.mem_append_left _ hm) rfl
        ⟨htrusted, f, hmem, rfl, hgives, hcurrent⟩ ?_
      intro m hm
      rcases mem_of_mem_setMember hm with rfl | hold
      · exact Or.inr ⟨f, hmem, rfl, hgives, rfl⟩
      · exact Or.inl hold
  · exact h

theorem Sound.verifyFor {c : Config} {s : Service} (h : Sound c s) (lib : JWT) (k now : Nat) :
    Sound c (s.verifyFor lib k now).1 := by
  unfold Service.verifyFor
  split
  · exact h.of_setCall rfl (Nat.le_refl _) (fun _ hm => hm) rfl trivial fun _ hm => Or.inl hm
  · exact h

theorem Sound.act {c : Config} {s : Service} (h : Sound c s) (lib : JWT) (a : Action)
    (htime : OnTime s a) : Sound c (s.act lib a).1 := by
  have ht := h.tick htime
  cases a with
  | start k now tokenString => exact ht.startCall lib k tokenString
  | fetch k now answers => exact ht.fetchFor k answers
  | verify k now => exact ht.verifyFor lib k now

/-- The claims that a call returns are those of a token signed with a current key of the issuer
that the token names. -/
structure Isolated (lib : JWT) (c : Config) (fetches : List Fetch) (r : Returned) (claims : Claims) :
    Prop where
  trusted : Trusted c claims.issuer
  verified : ∃ keys, Current fetches r.lookedUpAt claims.issuer keys ∧
    Verified lib c r.tokenString keys r.now claims

def ResultIsolated (lib : JWT) (c : Config) (s : Service) (r : Returned) : Prop :=
  ∀ claims, r.result = .ok claims → Isolated lib c s.fetches r claims

theorem isolated_of_verifyFor {lib : JWT} (hlib : lib.Enforces) {c : Config} {s : Service}
    (h : Sound c s) (k now : Nat) : ∀ r ∈ (s.verifyFor lib k now).2, ResultIsolated lib c s r := by
  intro r hr claims hclaims
  unfold Service.verifyFor at hr
  split at hr
  · rename_i tokenString lookedUpAt iss keys hcall
    cases List.mem_singleton.mp hr
    obtain ⟨htrusted, hcurrent⟩ := h.calls k _ hcall
    rw [h.config] at hclaims
    have hne : iss ≠ [] := by
      rintro rfl
      exact absurd htrusted.1 (by decide)
    obtain ⟨rfl, hverified⟩ := verified_of_verify hlib hne hclaims
    exact ⟨htrusted, keys, hcurrent, hverified⟩
  · cases hr

theorem startCall_result {lib : JWT} {s : Service} {k now : Nat} {tokenString : Str} :
    ∀ r ∈ (s.startCall lib k now tokenString).2, ∃ e, r.result = .error e := by
  intro r hr
  unfold Service.startCall at hr
  split at hr
  · cases hr
  · split at hr
    · cases List.mem_singleton.mp hr
      exact ⟨_, rfl⟩
    · cases hr
    · cases hr

theorem fetchFor_result {s : Service} {k now : Nat} {answers : Answers} :
    ∀ r ∈ (s.fetchFor k now answers).2, ∃ e, r.result = .error e := by
  intro r hr
  unfold Service.fetchFor at hr
  split at hr
  · split at hr
    · cases List.mem_singleton.mp hr
      exact ⟨_, rfl⟩
    · cases hr
  · cases hr

theorem isolated_act {lib : JWT} (hlib : lib.Enforces) {c : Config} {s : Service} (h : Sound c s)
    (a : Action) (htime : OnTime s a) : ∀ r ∈ (s.act lib a).2, ResultIsolated lib c s r := by
  intro r hr claims hclaims
  have ht := h.tick htime
  cases a with
  | start k now tokenString =>
    obtain ⟨e, he⟩ := startCall_result r hr
    cases he.symm.trans hclaims
  | fetch k now answers =>
    obtain ⟨e, he⟩ := fetchFor_result r hr
    cases he.symm.trans hclaims
  | verify k now => exact isolated_of_verifyFor hlib ht k now r hr claims hclaims

theorem act_clock (lib : JWT) (s : Service) (a : Action) : (s.act lib a).1.clock = a.now := by
  cases a with
  | start k now tokenString =>
    simp only [Service.act, Service.startCall]
    split
    · rfl
    · split <;> rfl
  | fetch k now answers =>
    simp only [Service.act, Service.fetchFor]
    split
    · split <;> rfl
    · rfl
  | verify k now =>
    simp only [Service.act, Service.verifyFor]
    split <;> rfl

theorem along_of_times (lib : JWT) (actions : List Action) (s : Service)
    (h : (s.clock :: actions.map Action.now).IsChain (· ≤ ·)) :
    Run.Along (Service.act lib) OnTime s actions := by
  induction actions generalizing s with
  | nil => trivial
  | cons a actions ih =>
    obtain ⟨ha, hrest⟩ := List.isChain_cons_cons.mp h
    exact ⟨ha, ih (s.act lib a).1 (by rw [act_clock]; exact hrest)⟩

/-- Whatever the tokens are and the servers answer, claims are returned for tokens only that are
signed with a current key of the issuer they name. -/
theorem issuer_keys_isolated (lib : JWT) (hlib : lib.Enforces) (c : Config) (v : Validator)
    (hv : newValidator c = .ok v) (clock : Nat) (actions : List Action)
    (htime : Run.Along (Service.act lib) OnTime (newService v clock) actions) :
    ∀ e ∈ Run.trace (Service.act lib) (newService v clock) actions, ResultIsolated lib c e.1 e.2 := by
  have hstart : Sound c (newService v clock) := by
    unfold newValidator at hv
    split at hv
    · cases hv
    · cases hv
      refine ⟨rfl, fun m hm => absurd hm List.not_mem_nil, ?_⟩
      intro k call hk
      cases hk
  exact Run.good_trace (fun _ a h ha => h.act lib a ha) (fun _ a h ha => isolated_act hlib h a ha)
    actions _ hstart htime

def powMod (m : Nat) : Nat → Nat → Nat → Nat
  | 0, _, _ => 1 % m
  | fuel + 1, b, e =>
    if e = 0 then 1 % m
    else
      Sha256.forced (b * b % m) fun square =>
        let half := powMod m fuel square (e / 2)
        if e % 2 = 1 then b * half % m else half

def byteLength (n : Nat) : Nat := (n.log2 + 8) / 8

def hexVal (s : Str) : Nat := s.foldl (fun n c => 16 * n + (JsonText.hexVal c).getD 0) 0

/-- The padded digest that a signature of a text under PKCS #1 v1.5 encodes. -/
def encodedDigest (length : Nat) (text : Str) : Nat :=
  2 * 256 ^ (length - 2) - 256 ^ 52 +
    0x3031300d060960864801650304020105000420 * 256 ^ 32 + hexVal (Sha256.sha256 text)

def verifiesRS256 (text : Str) (key : PublicKey) : Bool :=
  match Text.splitOn '.' text with
  | [header, payload, signature] =>
    match Base64.decodeRawURL signature with
    | none => false
    | some bytes =>
      bytes.length = byteLength key.n &&
        powMod key.n 64 (bigEndian bytes) key.e =
          encodedDigest (byteLength key.n) (header ++ '.' :: payload)
  | _ => false

def decodePart (part : Str) : Option (List (Str × Json)) :=
  (Base64.decodeRawURL part).bind fun bytes =>
    match (JsonText.parse (Text.ofBytes (bytes.map Fin.val))).bind Json.toAny with
    | some (.obj members) => some members
    | _ => none

def parseRS256 (text : Str) : Except Str Token :=
  match Text.splitOn '.' text with
  | [header, payload, _] =>
    match decodePart header, decodePart payload with
    | some header, some claims =>
      if lookup "alg".toList header = some (.str "RS256".toList) then
        .ok ⟨header, ⟨.rsa, "RS256".toList⟩, claims⟩
      else .error "signing method is unavailable".toList
    | _, _ => .error "token is malformed".toList
  | _ => .error "token contains an invalid number of segments".toList

instance (now : Nat) (claims : MapClaims) : Decidable (Unexpired now claims) :=
  match h : expirationTime claims with
  | none => .isFalse fun ⟨_, hexp, _⟩ => nomatch h.symm.trans hexp
  | some exp =>
    decidable_of_iff ((now : Int) < exp * 10 ^ 9)
      ⟨fun hlt => ⟨exp, h, hlt⟩, fun ⟨_, hexp, hlt⟩ => Option.some.inj (h.symm.trans hexp) ▸ hlt⟩

def rs256 : JWT where
  parseUnverified := parseRS256
  verifies text alg key := alg = "RS256".toList && verifiesRS256 text key
  parseWithClaims text keyfunc opts now :=
    match parseRS256 text with
    | .error e => .error e
    | .ok token =>
      if token.method.alg ∉ opts.validMethods then .error "token signature is invalid".toList
      else
        match keyfunc token with
        | .error e => .error e
        | .ok key =>
          if !verifiesRS256 text key then .error "crypto/rsa: verification error".toList
          else if ¬ Unexpired now token.claims then .error "token is expired".toList
          else if opts.issuer ≠ [] && lookup "iss".toList token.claims ≠ some (.str opts.issuer) then
            .error "token has invalid issuer".toList
          else .ok token.claims

theorem parseRS256_alg {text : Str} {token : Token} (h : parseRS256 text = .ok token) :
    token.method.alg = "RS256".toList := by
  unfold parseRS256 at h
  split at h
  · split at h
    · split at h
      · cases h
        rfl
      · cases h
    · cases h
  · cases h

theorem rs256_enforces : rs256.Enforces := by
  intro text keyfunc opts now claims h
  simp only [rs256] at h
  cases hp : parseRS256 text with
  | error e =>
    rw [hp] at h
    cases h
  | ok token =>
    rw [hp] at h
    dsimp only at h
    split at h
    · cases h
    · rename_i hmethod
      cases hk : keyfunc token with
      | error e =>
        rw [hk] at h
        cases h
      | ok key =>
        rw [hk] at h
        dsimp only at h
        split at h
        · cases h
        · rename_i hsigned
          split at h
          · cases h
          · rename_i hexp
            split at h
            · cases h
            · rename_i hiss
              cases h
              refine ⟨token, key, hp, rfl, not_not.mp hmethod, hk, ?_, fun _ => not_not.mp hexp, ?_⟩
              · have hverifies : verifiesRS256 text key = true := by simpa using hsigned
                exact Bool.and_eq_true_iff.mpr ⟨decide_eq_true (parseRS256_alg hp), hverifies⟩
              · intro hne
                simpa [hne] using hiss

def modulusA : Str :=
  "lssw2HlNUpdMoQjVQQl2Srsk6cQDwlG6bXwW-T-gOd3xt9qK53fCCbXSU5mAZIdv3zfEl-wprylDHgZedC6_".toList ++
    "UKSFHXyPf8uReSKvPMgrRenyQgFx147UNTIWk8JoQVCvamuvAyb1gzlnjg44ylWSaNnBYmukYIt-8m3f3w52".toList ++
    "8t8".toList

def modulusB : Str :=
  "mX3gKaEL8_twDL4imBoUptPAG-ybiK5OZVz9z0qQ3We8TyImhnIjEWcnWSqy02dYjYvPWxMWnbRuMfFDBXxs".toList ++
    "rtcrJW4c-G5zN0GhuF0SzuYeh1j3g30jOUAWx4apZkCC6TInSIl-ADdayyAOP1OJUf2p9t6t7NaPw2Dwb7yZ".toList ++
    "NR0".toList

/-- A token of the first issuer. -/
def tokenA : Str :=
  "eyJhbGciOiJSUzI1NiIsImtpZCI6ImsifQ.eyJhdWQiOiJodHRwczovL2cvbWNwIiwiZXhwIjoyMDAwMDAwM".toList ++
    "DAwLCJpc3MiOiJodHRwczovL2EiLCJzY29wZSI6InJlYWQgd3JpdGUiLCJzdWIiOiJ1In0.bjv0hYbal5VSU".toList ++
    "hMheeDdZ2651sAUA-DlcPcZh6mOLxMzrnOrRuBZjS372zWtMdH9FrnESC7cPRYtXv2OSSH-N85TgyKEQmfj1".toList ++
    "a-vHtTrEX48kD63mUk__Am4FTkPqJtgTdiOq6sl6-fUaL7XMr726bej2DVtDFT5gNVq-8F8HZc".toList

/-- A token that names the second issuer, signed with the key of the first. -/
def tokenX : Str :=
  "eyJhbGciOiJSUzI1NiIsImtpZCI6ImsifQ.eyJhdWQiOiJodHRwczovL2cvbWNwIiwiZXhwIjoyMDAwMDAwM".toList ++
    "DAwLCJpc3MiOiJodHRwczovL2IiLCJzdWIiOiJ1In0.gS3-II1iuA0JfALM_Q4MMz1zOyFMpMNKdqzLWTSwV".toList ++
    "-kZRevWe8mhfW5Tzp8QPioeY9AbtkmGEG_uQLi9CV4Za1IWn7gcXKdshnypSj_jYY22-SUxdWAi2tUS49HV3".toList ++
    "Uj2oJS6s88yxevPIreKDvSXDXGuEIql_cSS0YzvFN2NWxw".toList

def keysDocument (modulus : Str) : Str :=
  "\x7b\"keys\":[\x7b\"kty\":\"RSA\",\"kid\":\"k\",\"use\":\"sig\",\"n\":\"".toList ++ modulus ++
    "\",\"e\":\"AQAB\"\x7d]\x7d".toList

def discoveryDocument (issuer : Str) : Str :=
  "\x7b\"jwks_uri\":\"".toList ++ issuer ++ "/jwks.json\"\x7d".toList

def issuerA : Str := "https://a".toList

def issuerB : Str := "https://b".toList

/-- The first issuer has a document at the first place, the second one at the second place. -/
def twoIssuers : Answers := fun _ url =>
  if url = issuerA ++ "/.well-known/oauth-authorization-server".toList then
    .ok ⟨200, discoveryDocument issuerA⟩
  else if url = issuerB ++ "/.well-known/openid-configuration".toList then
    .ok ⟨200, discoveryDocument issuerB⟩
  else if url = issuerA ++ "/jwks.json".toList then .ok ⟨200, keysDocument modulusA⟩
  else if url = issuerB ++ "/jwks.json".toList then .ok ⟨200, keysDocument modulusB⟩
  else .ok ⟨404, []⟩

def twoIssuersConfig : Config := ⟨"https://g/mcp".toList, [issuerA, issuerB ++ ['/']]⟩

def startTime : Nat := 1900000000 * 10 ^ 9

/-- Both fetches go on at the same time, and a third call finds the first key set in the cache. -/
def twoIssuersRun : List Action :=
  [.start 0 startTime tokenA, .start 1 startTime tokenX, .fetch 1 (startTime + 1) twoIssuers,
    .fetch 0 (startTime + 2) twoIssuers, .verify 0 (startTime + 3), .verify 1 (startTime + 3),
    .start 2 (startTime + 10 ^ 9) tokenA, .verify 2 (startTime + 10 ^ 9)]

def twoIssuersStart : Service := newService ⟨twoIssuersConfig, []⟩ startTime

theorem results_twoIssuersRun :
    (Run.trace (Service.act rs256) twoIssuersStart twoIssuersRun).map (fun e =>
        e.2.result.map fun claims => (claims.subject, claims.scopes, claims.issuer)) =
      [.ok (['u'], ["read".toList, "write".toList], issuerA),
        .error "oauth: verify token: crypto/rsa: verification error".toList,
        .ok (['u'], ["read".toList, "write".toList], issuerA)] := by
  decide +kernel

theorem twoIssuersRun_isolated :
    (Run.trace (Service.act rs256) twoIssuersStart twoIssuersRun).length = 3 ∧
      ∀ e ∈ Run.trace (Service.act rs256) twoIssuersStart twoIssuersRun,
        ResultIsolated rs256 twoIssuersConfig e.1 e.2 := by
  constructor
  · exact (List.length_map _).symm.trans (congrArg List.length results_twoIssuersRun)
  · refine issuer_keys_isolated rs256 rs256_enforces twoIssuersConfig ⟨twoIssuersConfig, []⟩ rfl startTime
      twoIssuersRun (along_of_times rs256 twoIssuersRun _ ?_)
    decide +kernel

end Janus.OAuth
