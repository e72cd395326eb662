import Janus.Lib.Text
import Janus.OAuthValidator

/-!
# Portal sessions

Embedding of `AuthManager`: a session is a token under HS256 that is valid for a day, and a
request presents it in its Authorization header. The JWT package is a parameter; what the
code relies on is `JWT.Lawful`.
-/

namespace Janus.Auth

set_option autoImplicit false

open OAuth (SigningMethod)

def second : Nat := 10 ^ 9

/-- Dates are in whole seconds, all other times in nanoseconds. -/
structure Claims where
  username : Str
  role : Str
  issuer : Str
  audience : List Str
  expiresAt : Option Nat
  notBefore : Option Nat
  issuedAt : Option Nat
  deriving Repr, DecidableEq

structure Token where
  method : SigningMethod
  claims : Claims

structure ParserOptions where
  validMethods : List Str
  audience : Str
  issuer : Str

structure JWT where
  parseUnverified : Str → Except Str Token
  /-- Whether the signature of a text is one of the algorithm under the key. -/
  verifies : Str → Str → Str → Bool
  /-- `SignedString` of a new token under HS256. -/
  signedString : Claims → Str → Except Str Str
  parseWithClaims : Str → (SigningMethod → Except Str Str) → ParserOptions → Nat → Except Str Claims

/-- The dates of the claims allow the present time. -/
structure Live (now : Nat) (c : Claims) : Prop where
  before : ∀ d, c.expiresAt = some d → now < d * second
  after : ∀ d, c.notBefore = some d → d * second ≤ now

/-- What `ParseWithClaims` asks of a token that it accepts. -/
structure JWT.Accepts (lib : JWT) (text : Str) (keyfunc : SigningMethod → Except Str Str)
    (opts : ParserOptions) (now : Nat) (claims : Claims) (token : Token) (key : Str) : Prop where
  parsed : lib.parseUnverified text = .ok token
  same : token.claims = claims
  method : token.method.alg ∈ opts.validMethods
  keyed : keyfunc token.method = .ok key
  signed : lib.verifies text token.method.alg key = true
  live : Live now claims
  audience : opts.audience ∈ claims.audience
  issuer : claims.issuer = opts.issuer

def hs256 : SigningMethod := ⟨.hmac, "HS256".toList⟩

/-- A text carries claims under HS256 with a key. -/
structure JWT.Carries (lib : JWT) (text key : Str) (claims : Claims) : Prop where
  parsed : lib.parseUnverified text = .ok ⟨hs256, claims⟩
  signed : lib.verifies text hs256.alg key = true

/-- Dates that a double holds exactly. -/
def Claims.Dated (c : Claims) : Prop :=
  ∀ d, c.expiresAt = some d ∨ c.notBefore = some d ∨ c.issuedAt = some d → d < 2 ^ 53

/-- The options are enforced, no others are, and a signed token carries its claims. -/
structure JWT.Lawful (lib : JWT) : Prop where
  accepts : ∀ text keyfunc opts now claims, lib.parseWithClaims text keyfunc opts now = .ok claims ↔
    ∃ token key, lib.Accepts text keyfunc opts now claims token key
  signs : ∀ claims key, claims.Dated →
    ∃ text, lib.signedString claims key = .ok text ∧ text ≠ [] ∧ lib.Carries text key claims

def jwtAudience : Str := "mcp-portal".toList

def jwtIssuer : Str := "mcp-api-gateway".toList

def day : Nat := 24 * 3600 * second

def sessionClaims (username role : Str) (now : Nat) : Claims where
  username := username
  role := role
  issuer := jwtIssuer
  audience := [jwtAudience]
  expiresAt := some ((now + day) / second)
  notBefore := none
  issuedAt := some (now / second)

structure AuthManager where
  jwtSecret : Str
  gatewayToken : Str

def AuthManager.generateJWT (a : AuthManager) (lib : JWT) (username role : Str) (now : Nat) :
    Except Str Str :=
  lib.signedString (sessionClaims username role now) a.jwtSecret

/-- The closure that `ParseWithClaims` is given. -/
def AuthManager.keyfunc (a : AuthManager) (method : SigningMethod) : Except Str Str :=
  if method.family ≠ .hmac then .error ("unexpected signing method: ".toList ++ method.alg)
  else .ok a.jwtSecret

def sessionOptions : ParserOptions := ⟨["HS256".toList], jwtAudience, jwtIssuer⟩

def AuthManager.validateJWT (a : AuthManager) (lib : JWT) (now : Nat) (tokenStr : Str) :
    Except Str Claims :=
  lib.parseWithClaims tokenStr a.keyfunc sessionOptions now

/-- The token of an Authorization header, empty when there is none. -/
def bearerToken (authorization : Str) : Str :=
  match Text.cut ' ' authorization with
  | none => []
  | some (scheme, rest) =>
    if Text.equalFold scheme "bearer".toList then Text.trimSpace rest else []

inductive Denied where
  | unauthorized
  | forbidden
  deriving Repr, DecidableEq

def AuthManager.authenticate (a : AuthManager) (lib : JWT) (now : Nat) (authorization : Str) :
    Except Denied Claims :=
  let tokenStr := bearerToken authorization
  if tokenStr = [] then .error .unauthorized
  else
    match a.validateJWT lib now tokenStr with
    | .error _ => .error .unauthorized
    | .ok claims => .ok claims

/-- What `AdminAuthMiddleware` does before it calls the handler. -/
def AuthManager.authorizeAdmin (a : AuthManager) (lib : JWT) (now : Nat) (authorization : Str) :
    Except Denied Claims :=
  match a.authenticate lib now authorization with
  | .error d => .error d
  | .ok claims => if claims.role ≠ "admin".toList then .error .forbidden else .ok claims

variable {lib : JWT} {a : AuthManager} {now : Nat}

/-- Until when a session that was granted at a time is valid. -/
def expiry (grantedAt : Nat) : Nat := (grantedAt + day) / second * second

theorem expiry_bounds (t : Nat) : expiry t ≤ t + day ∧ t + day < expiry t + second := by
  unfold expiry second
  omega

theorem dated_sessionClaims {username role : Str} {t : Nat} (ht : t + day < 2 ^ 53 * second) :
    (sessionClaims username role t).Dated := by
  have hlt : (t + day) / second < 2 ^ 53 := Nat.div_lt_of_lt_mul (by rwa [Nat.mul_comm])
  have hle : t / second ≤ (t + day) / second := Nat.div_le_div_right (Nat.le_add_right t day)
  rintro d (hd | hd | hd)
  · exact Option.some.inj hd ▸ hlt
  · cases hd
  · exact Option.some.inj hd ▸ hle.trans_lt hlt

/-- A session that was granted carries its claims. -/
theorem carries_generateJWT (hlib : lib.Lawful) {username role token : Str} {t : Nat}
    (ht : t + day < 2 ^ 53 * second) (h : a.generateJWT lib username role t = .ok token) :
    token ≠ [] ∧ lib.Carries token a.jwtSecret (sessionClaims username role t) := by
  obtain ⟨text, hsigned, hne, hcarries⟩ :=
    hlib.signs (sessionClaims username role t) a.jwtSecret (dated_sessionClaims ht)
  have htoken : text = token := Except.ok.inj (hsigned.symm.trans h)
  exact htoken ▸ ⟨hne, hcarries⟩

theorem live_sessionClaims {username role : Str} {t : Nat} :
    Live now (sessionClaims username role t) ↔ now < expiry t := by
  constructor
  · intro h
    exact h.before _ rfl
  · intro h
    refine ⟨?_, ?_⟩
    · intro d hd
      cases hd
      exact h
    · intro d hd
      cases hd

/-- The claims of an accepted token, and that it is signed with the secret. -/
theorem validateJWT_ok (hlib : lib.Lawful) {text : Str} {claims : Claims}
    (h : a.validateJWT lib now text = .ok claims) :
    lib.parseUnverified text = .ok ⟨⟨.hmac, "HS256".toList⟩, claims⟩ ∧
      lib.verifies text hs256.alg a.jwtSecret = true ∧ Live now claims := by
  obtain ⟨token, key, ha⟩ := (hlib.accepts _ _ _ _ _).mp h
  have halg : token.method.alg = "HS256".toList := List.mem_singleton.mp ha.method
  have hkeyed := ha.keyed
  unfold AuthManager.keyfunc at hkeyed
  split at hkeyed
  · cases hkeyed
  · rename_i hfamily
    have hfamily : token.method.family = .hmac := not_not.mp hfamily
    cases hkeyed
    refine ⟨?_, ?_, ha.live⟩
    · rw [ha.parsed]
      obtain ⟨⟨family, alg⟩, tokenClaims⟩ := token
      subst hfamily halg
      rw [show tokenClaims = claims from ha.same]
    · have hsigned := ha.signed
      rwa [halg] at hsigned

/-- A token that carries session claims is accepted until they expire. -/
theorem validateJWT_carries (hlib : lib.Lawful) {text username role : Str} {t : Nat}
    (h : lib.Carries text a.jwtSecret (sessionClaims username role t)) :
    a.validateJWT lib now text = .ok (sessionClaims username role t) ↔ now < expiry t := by
  constructor
  · intro hok
    exact live_sessionClaims.mp (validateJWT_ok hlib hok).2.2
  · intro hlt
    refine (hlib.accepts _ _ _ _ _).mpr ⟨_, a.jwtSecret, h.parsed, rfl, ?_, ?_, h.signed, ?_, ?_, rfl⟩
    · exact List.mem_singleton_self _
    · rfl
    · exact live_sessionClaims.mpr hlt
    · exact List.mem_singleton_self _

theorem authenticate_ok {authorization : Str} {claims : Claims}
    (h : a.authenticate lib now authorization = .ok claims) :
    bearerToken authorization ≠ [] ∧ a.validateJWT lib now (bearerToken authorization) = .ok claims := by
  unfold AuthManager.authenticate at h
  dsimp only at h
  split at h
  · cases h
  · rename_i hne
    split at h
    · cases h
    · rename_i hv
      cases h
      exact ⟨hne, hv⟩

theorem authenticate_of_ok {authorization : Str} {claims : Claims} (hne : bearerToken authorization ≠ [])
    (h : a.validateJWT lib now (bearerToken authorization) = .ok claims) :
    a.authenticate lib now authorization = .ok claims := by
  unfold AuthManager.authenticate
  dsimp only
  rw [if_neg hne, h]

theorem authenticate_error {authorization : Str} {d : Denied}
    (h : a.authenticate lib now authorization = .error d) : d = .unauthorized := by
  unfold AuthManager.authenticate at h
  dsimp only at h
  split at h
  · exact (Except.error.inj h).symm
  · split at h
    · exact (Except.error.inj h).symm
    · cases h

theorem authorizeAdmin_ok {authorization : Str} {claims : Claims} :
    a.authorizeAdmin lib now authorization = .ok claims ↔
      a.authenticate lib now authorization = .ok claims ∧ claims.role = "admin".toList := by
  unfold AuthManager.authorizeAdmin
  cases a.authenticate lib now authorization with
  | error d => simp
  | ok c =>
    dsimp only
    by_cases hr : c.role = "admin".toList
    · rw [if_neg (not_not.mpr hr)]
      constructor
      · intro h
        cases h
        exact ⟨rfl, hr⟩
      · rintro ⟨h, _⟩
        exact h
    · rw [if_pos hr]
      constructor
      · intro h
        cases h
      · rintro ⟨h, hc⟩
        cases h
        exact absurd hc hr

theorem bearerToken_bearer {token : Str} (h : ∀ c ∈ token, Text.isSpace c = false) :
    bearerToken ("Bearer ".toList ++ token) = token := by
  have hcut : Text.cut ' ' ("Bearer ".toList ++ token) = some ("Bearer".toList, token) := rfl
  rw [bearerToken, hcut]
  have hfold : Text.equalFold "Bearer".toList "bearer".toList = true := by decide
  have htrim : Text.trimSpace token = token := by
    apply Text.trim_eq_self
    · intro c hc
      exact h c (List.mem_of_mem_head? hc)
    · intro c hc
      exact h c (List.mem_of_getLast? hc)
  simp only [hfold, if_true, htrim]

end Janus.Auth
