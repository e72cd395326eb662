import Janus.Auth
import Janus.Lib.Base64Url
import Janus.PortalRequests
import Janus.Startup

/-!
# Single sign-on

Embedding of `handleSSOLogin`, `handleSSOCallback` and `verifyIDToken`. The login leaves a
random state in a cookie of the browser and sends it to the identity provider; the callback
compares the two, exchanges its code for an ID token and grants a session under the default
role. The keys of the issuer are cached by the process.
-/

namespace Janus.PortalServer

set_option autoImplicit false

open OAuth (KeySet PublicKey MapClaims CacheEntry)
open Startup (Config)
open Auth (AuthManager)

/-- What the identity provider answers, to the form that is posted to a URL and to the read of
a URL. -/
structure IdentityProvider where
  post : Str → Str → Except Str OAuth.Response
  get : Str → Except Str OAuth.Response

abbrev KeyCache := List (Str × CacheEntry)

/-- The errors of the discovery and of the keys reach nobody; they are all `none`. -/
def fetchJWKSURI (idp : IdentityProvider) (discoveryURL : Str) : Option Str :=
  match idp.get discoveryURL with
  | .error _ => none
  | .ok resp =>
    if resp.statusCode ≠ 200 then none
    else ((OAuth.decodeBody resp.body).bind OAuth.decodeDiscovery).filter fun uri => uri ≠ []

/-- The keys of an issuer, fetched. -/
def fetchIssuerKeys (idp : IdentityProvider) (issuer : Str) : Option KeySet :=
  (fetchJWKSURI idp (issuer ++ "/.well-known/openid-configuration".toList)).bind fun uri =>
    if Text.hasPrefix uri OAuth.https then (OAuth.fetchJWKSKeys (idp.get uri)).toOption else none

/-- `fetchJWKS`: a live entry of the cache, or else what is fetched and then cached. -/
def fetchJWKS (idp : IdentityProvider) (now : Nat) (issuer : Str) (cache : KeyCache) :
    Option KeySet × KeyCache :=
  let issuer := OAuth.trimSlash issuer
  if !Text.hasPrefix issuer OAuth.https then (none, cache)
  else
    match (lookup issuer cache).filter fun e => now - e.fetchedAt < OAuth.jwksCacheTTL with
    | some e => (some e.keys, cache)
    | none =>
      match fetchIssuerKeys idp issuer with
      | none => (none, cache)
      | some keys => (some keys, setMember issuer ⟨keys, now⟩ cache)

/-- The closure that `ParseWithClaims` is given. -/
def idTokenKey (keys : KeySet) (token : OAuth.Token) : Except Str PublicKey :=
  if token.method.family ≠ .rsa then
    .error ("unexpected signing method ".toList ++
      ((lookup "alg".toList token.header).elim "<nil>".toList Json.formatV))
  else
    let kid := OAuth.stringClaim "kid" token.header
    if kid = [] then
      match keys with
      | [(_, k)] => .ok k
      | _ => .error "id token missing kid".toList
    else
      match lookup kid keys with
      | none => .error ("no jwks key for kid ".toList ++ Text.quote kid)
      | some key => .ok key

def idTokenOptions : OAuth.ParserOptions := ⟨OAuth.signingAlgs, true, []⟩

/-- The checks after the signature, the nonce among them when one was requested. -/
def idTokenFits (c : Config) (expectedNonce : Str) (claims : MapClaims) : Bool :=
  OAuth.trimSlash (OAuth.stringClaim "iss" claims) = OAuth.trimSlash c.oidcIssuer &&
    OAuth.audienceContains (lookup "aud".toList claims) c.oidcClientID &&
    (expectedNonce = [] || (OAuth.stringClaim "nonce" claims ≠ [] &&
      OAuth.stringClaim "nonce" claims = expectedNonce))

def verifyIDToken (c : Config) (lib : OAuth.JWT) (idp : IdentityProvider) (now : Nat)
    (rawIDToken expectedNonce : Str) (cache : KeyCache) : Option MapClaims × KeyCache :=
  match fetchJWKS idp now c.oidcIssuer cache with
  | (none, cache) => (none, cache)
  | (some keys, cache) =>
    match lib.parseWithClaims rawIDToken (idTokenKey keys) idTokenOptions now with
    | .error _ => (none, cache)
    | .ok claims => (if idTokenFits c expectedNonce claims then some claims else none, cache)

def redirectURI (c : Config) (r : Request) : Str :=
  let base := OAuth.trimSlash c.publicBaseURL
  let base :=
    if base = [] then (if r.tls then "https".toList else "http".toList) ++ "://".toList ++ r.host
    else base
  base ++ "/api/auth/sso/callback".toList

def randomState (random : List Byte) : Str := Base64.encodeRawURL random

def authURL (c : Config) (r : Request) (state : Str) : Str :=
  OAuth.trimSlash c.oidcIssuer ++ "/protocol/openid-connect/auth?client_id=".toList ++
    Url.queryEscape c.oidcClientID ++ "&redirect_uri=".toList ++ Url.queryEscape (redirectURI c r) ++
    "&response_type=code&scope=".toList ++ Url.queryEscape "openid profile email".toList ++
    "&state=".toList ++ Url.queryEscape state

def handleSSOLogin (c : Config) (random : List Byte) (r : Request) : Response :=
  if c.oidcIssuer = [] then httpError 400 "\x7b\"error\":\"SSO/OIDC not configured\"\x7d"
  else
    let state := randomState random
    { redirect r.url.escapedPath (authURL c r state) 302 with setCookie := some ⟨state, 300⟩ }

def tokenURL (c : Config) : Str :=
  OAuth.trimSlash c.oidcIssuer ++ "/protocol/openid-connect/token".toList

/-- The form that exchanges a code. -/
def exchangeForm (c : Config) (r : Request) (code : Str) : Str :=
  Url.Values.encode (((((Url.Values.set [] "grant_type".toList "authorization_code".toList).set
    "code".toList code).set "redirect_uri".toList (redirectURI c r)).set
    "client_id".toList c.oidcClientID).set "client_secret".toList c.oidcClientSecret)

/-- The ID token of an answer to the exchange. -/
def decodeTokens : Json → Option Str :=
  Decode.record (fun idToken k v =>
    if Text.equalFold k "access_token".toList then (Decode.str [] v).map fun _ => idToken
    else if Text.equalFold k "id_token".toList then Decode.str idToken v
    else some idToken) []

/-- The exchange of a code for an ID token, or the error that the login page is sent. -/
def exchange (c : Config) (idp : IdentityProvider) (r : Request) (code : Str) : Except String Str :=
  match idp.post (tokenURL c) (exchangeForm c r code) with
  | .error _ => .error "sso-exchange-failed"
  | .ok resp =>
    if resp.statusCode ≠ 200 then .error "sso-invalid-code"
    else
      match (JsonText.parseValue (resp.body.length + 1) resp.body).bind fun p => decodeTokens p.1 with
      | none => .error "sso-parse-failed"
      | some idToken => if idToken = [] then .error "sso-missing-id-token" else .ok idToken

/-- The name of a user, as the claims give it. -/
def ssoUsername (claims : MapClaims) : Str :=
  if OAuth.stringClaim "preferred_username" claims ≠ [] then
    OAuth.stringClaim "preferred_username" claims
  else if OAuth.stringClaim "email" claims ≠ [] then OAuth.stringClaim "email" claims
  else "sso-user".toList

def ssoRole (c : Config) : Str := if c.oidcDefaultRole = [] then "viewer".toList else c.oidcDefaultRole

/-- The cookie is the one that the request's state parameter names. -/
def stateMatches (r : Request) : Bool :=
  match r.stateCookie with
  | none => false
  | some value => value ≠ [] && value = r.query "state"

/-- The one-time cookie is removed. -/
def clearCookie : Cookie := ⟨[], -1⟩

def loginError (error : String) : Response :=
  { redirect [] ("/login?error=".toList ++ error.toList) 302 with setCookie := some clearCookie }

def signedOn (token username : Str) : Response :=
  { redirect [] ("/#token=".toList ++ token ++ "&username=".toList ++ username) 302 with
      setCookie := some clearCookie }

/-- A session that the portal has granted. -/
structure Grant where
  token : Str
  username : Str
  role : Str
  grantedAt : Nat
  deriving DecidableEq

/-- From the exchanged ID token to the session. -/
def signOn (c : Config) (a : AuthManager) (lib : OAuth.JWT) (sessions : Auth.JWT)
    (idp : IdentityProvider) (now : Nat) (idToken : Str) (cache : KeyCache) :
    (Response × Option Grant) × KeyCache :=
  match verifyIDToken c lib idp now idToken [] cache with
  | (none, cache) => ((loginError "sso-id-token-invalid", none), cache)
  | (some claims, cache) =>
    match a.generateJWT sessions (ssoUsername claims) (ssoRole c) now with
    | .error _ => ((loginError "sso-generation-failed", none), cache)
    | .ok token =>
      ((signedOn token (ssoUsername claims), some ⟨token, ssoUsername claims, ssoRole c, now⟩), cache)

def handleSSOCallback (c : Config) (a : AuthManager) (lib : OAuth.JWT) (sessions : Auth.JWT)
    (idp : IdentityProvider) (now : Nat) (r : Request) (cache : KeyCache) :
    (Response × Option Grant) × KeyCache :=
  if c.oidcIssuer = [] then
    ((httpError 403 "\x7b\"error\":\"SSO/OIDC not configured\"\x7d", none), cache)
  else if r.query "code" = [] then
    ((httpError 400 "\x7b\"error\":\"missing code\"\x7d", none), cache)
  else if !stateMatches r then
    ((httpError 400 "\x7b\"error\":\"invalid or missing state\"\x7d", none), cache)
  else
    match exchange c idp r (r.query "code") with
    | .error e => ((loginError e, none), cache)
    | .ok idToken => signOn c a lib sessions idp now idToken cache

end Janus.PortalServer
