import Janus.Lib.Base64
import Janus.Lib.Decode
import Janus.Lib.JsonText
import Janus.Lib.Run

/-!
# Validation of OAuth access tokens

Embedding of `pkg/oauth/validator.go`. The JWT package is a parameter; what the code relies
on is `JWT.Enforces`. Calls of `ValidateToken` run at the same time and share the cache of
the key sets; the lock is held for a lookup and for an insertion only, so `Service.act` lets
other calls take steps between the two.
-/

namespace Janus.OAuth

set_option autoImplicit false

/-- Five minutes, in nanoseconds. -/
def jwksCacheTTL : Nat := 300 * 10 ^ 9

structure Config where
  resourceURI : Str
  authorizationServers : List Str

/-- An `rsa.PublicKey`. -/
structure PublicKey where
  n : Nat
  e : Nat
  deriving DecidableEq, Repr

/-- The keys of an issuer by `kid`. -/
abbrev KeySet := List (Str × PublicKey)

structure CacheEntry where
  keys : KeySet
  fetchedAt : Nat

abbrev MapClaims := List (Str × Json)

structure Claims where
  subject : Str
  scopes : List Str
  issuer : Str
  raw : MapClaims
  deriving DecidableEq

inductive MethodFamily where
  | rsa
  | rsaPSS
  | ecdsa
  | ed25519
  | hmac
  | none
  deriving DecidableEq

structure SigningMethod where
  family : MethodFamily
  alg : Str
  deriving DecidableEq

structure Token where
  header : List (Str × Json)
  method : SigningMethod
  claims : MapClaims
  deriving DecidableEq

structure ParserOptions where
  validMethods : List Str
  expirationRequired : Bool
  issuer : Str

structure JWT where
  parseUnverified : Str → Except Str Token
  /-- Whether the signature of a token is one of the algorithm under the key. -/
  verifies : Str → Str → PublicKey → Bool
  parseWithClaims : Str → (Token → Except Str PublicKey) → ParserOptions → Nat → Except Str MapClaims

/-- The integer part of a number. -/
def wholePart (d : Decimal) : Int :=
  let whole := d.digits.take d.point.toNat
  let n := digitsVal whole * 10 ^ (d.point.toNat - whole.length)
  if d.neg then -n else n

/-- `GetExpirationTime`, in seconds. -/
def expirationTime (claims : MapClaims) : Option Int :=
  match lookup "exp".toList claims with
  | some (.num n) => some (wholePart n.decimal)
  | _ => none

def Unexpired (now : Nat) (claims : MapClaims) : Prop :=
  ∃ exp, expirationTime claims = some exp ∧ (now : Int) < exp * 10 ^ 9

/-- What `ParseWithClaims` promises of a token that it accepts. -/
structure JWT.Accepts (lib : JWT) (text : Str) (keyfunc : Token → Except Str PublicKey)
    (opts : ParserOptions) (now : Nat) (claims : MapClaims) (token : Token) (key : PublicKey) : Prop where
  parsed : lib.parseUnverified text = .ok token
  same : token.claims = claims
  method : token.method.alg ∈ opts.validMethods
  keyed : keyfunc token = .ok key
  signed : lib.verifies text token.method.alg key = true
  unexpired : opts.expirationRequired = true → Unexpired now claims
  issuer : opts.issuer ≠ [] → lookup "iss".toList claims = some (.str opts.issuer)

/-- The options that `ParseWithClaims` is given are enforced. -/
def JWT.Enforces (lib : JWT) : Prop :=
  ∀ text keyfunc opts now claims, lib.parseWithClaims text keyfunc opts now = .ok claims →
    ∃ token key, lib.Accepts text keyfunc opts now claims token key

structure Response where
  statusCode : Nat
  body : Str

/-- What the servers answer to the requests of one fetch, by the number of the request. -/
abbrev Answers := Nat → Str → Except Str Response

def decimal (n : Nat) : Str := natDigits n

/-- The first value of a body, of which no more than `1<<20` bytes are read. -/
def decodeBody (body : Str) : Option Json :=
  let text := Text.takeBytes (2 ^ 20) body
  (JsonText.parseValue (text.length + 1) text).map Prod.fst

def decodeDiscovery : Json → Option Str :=
  Decode.record (fun uri k v => if Text.equalFold k "jwks_uri".toList then Decode.str uri v else some uri) []

def fetchDiscoveryJWKSURI (answer : Except Str Response) (discoveryURL : Str) : Except Str Str :=
  match answer with
  | .error e => .error ("fetch discovery document: ".toList ++ e)
  | .ok resp =>
    if resp.statusCode ≠ 200 then
      .error ("discovery document ".toList ++ discoveryURL ++ " returned HTTP ".toList ++
        decimal resp.statusCode)
    else
      match (decodeBody resp.body).bind decodeDiscovery with
      | none => .error "decode discovery document".toList
      | some uri => if uri = [] then .error "discovery document missing jwks_uri".toList else .ok uri

def wellKnownPaths : List Str :=
  ["/.well-known/oauth-authorization-server".toList, "/.well-known/openid-configuration".toList]

def discoverFrom (answers : Answers) (issuer : Str) : Nat → Str → List Str → Except Str Str
  | _, lastErr, [] =>
    .error ("discover jwks_uri for issuer ".toList ++ Text.quote issuer ++ ": ".toList ++ lastErr)
  | i, _, wellKnown :: rest =>
    match fetchDiscoveryJWKSURI (answers i (issuer ++ wellKnown)) (issuer ++ wellKnown) with
    | .error e => discoverFrom answers issuer (i + 1) e rest
    | .ok uri => .ok uri

def discoverJWKSURI (answers : Answers) (issuer : Str) : Except Str Str :=
  discoverFrom answers issuer 0 [] wellKnownPaths

structure JWK where
  kty : Str
  kid : Str
  use : Str
  n : Str
  e : Str

def zeroJWK : JWK := ⟨[], [], [], [], []⟩

def decodeJWK : JWK → Json → Option JWK :=
  Decode.record fun k name v =>
    if Text.equalFold name "kty".toList then (Decode.str k.kty v).map fun x => { k with kty := x }
    else if Text.equalFold name "kid".toList then (Decode.str k.kid v).map fun x => { k with kid := x }
    else if Text.equalFold name "use".toList then (Decode.str k.use v).map fun x => { k with use := x }
    else if Text.equalFold name "n".toList then (Decode.str k.n v).map fun x => { k with n := x }
    else if Text.equalFold name "e".toList then (Decode.str k.e v).map fun x => { k with e := x }
    else some k

def decodeJWKS : Json → Option (List JWK) :=
  Decode.record (fun keys name v =>
    if Text.equalFold name "keys".toList then Decode.list zeroJWK decodeJWK keys v else some keys) []

/-- A big-endian number. -/
def bigEndian (bytes : List Byte) : Nat := bytes.foldl (fun n b => 256 * n + b.val) 0

def rsaPublicKeyFromJWK (n e : Str) : Option PublicKey :=
  (Base64.decodeRawURL n).bind fun nBytes =>
    (Base64.decodeRawURL e).bind fun eBytes =>
      if 2 ≤ bigEndian eBytes && bigEndian eBytes < 2 ^ 63 then
        some ⟨bigEndian nBytes, bigEndian eBytes⟩
      else none

/-- One turn of the loop over the published keys. -/
def addKey (keys : KeySet) (k : JWK) : KeySet :=
  if k.kty ≠ "RSA".toList then keys
  else if k.use ≠ [] && k.use ≠ "sig".toList then keys
  else
    match rsaPublicKeyFromJWK k.n k.e with
    | none => keys
    | some pub => setMember k.kid pub keys

def fetchJWKSKeys (answer : Except Str Response) : Except Str KeySet :=
  match answer with
  | .error e => .error ("fetch jwks: ".toList ++ e)
  | .ok resp =>
    if resp.statusCode ≠ 200 then
      .error ("jwks endpoint returned HTTP ".toList ++ decimal resp.statusCode)
    else
      match (decodeBody resp.body).bind decodeJWKS with
      | none => .error "decode jwks".toList
      | some jwks =>
        let keys := jwks.foldl addKey []
        if keys.isEmpty then .error "jwks contained no usable RSA signing keys".toList
        else .ok keys

def https : Str := "https://".toList

/-- What `fetchJWKS` does after a lookup that found nothing. -/
def fetchKeys (answers : Answers) (issuer : Str) : Except Str KeySet :=
  match discoverJWKSURI answers issuer with
  | .error e => .error e
  | .ok jwksURI =>
    if Text.hasPrefix jwksURI https then fetchJWKSKeys (answers wellKnownPaths.length jwksURI)
    else .error ("jwks_uri must be https, got ".toList ++ Text.quote jwksURI)

def trimSlash (s : Str) : Str := Text.trimSuffix s ['/']

def issuerTrusted (c : Config) (iss : Str) : Bool :=
  if iss = [] || !Text.hasPrefix iss https then false
  else c.authorizationServers.any fun a => trimSlash a = trimSlash iss

def stringClaim (name : String) (claims : List (Str × Json)) : Str :=
  match lookup name.toList claims with
  | some (.str s) => s
  | _ => []

/-- The strings of an array that are not empty. -/
def nonEmptyStrings : List Json → List Str
  | [] => []
  | .str s :: vs => if s = [] then nonEmptyStrings vs else s :: nonEmptyStrings vs
  | _ :: vs => nonEmptyStrings vs

def parseScopes (raw : MapClaims) : List Str :=
  if stringClaim "scope" raw ≠ [] then Text.fields (stringClaim "scope" raw)
  else
    match lookup "scp".toList raw with
    | some (.str v) => if v = [] then [] else Text.fields v
    | some (.arr vs) => nonEmptyStrings vs
    | _ => []

def audienceContains (aud : Option Json) (resourceURI : Str) : Bool :=
  if resourceURI = [] then false
  else
    match aud with
    | some (.str v) => v = resourceURI
    | some (.arr vs) => vs.any fun a => a = .str resourceURI
    | _ => false

/-- The closure that `ParseWithClaims` is given. -/
def keyfunc (keys : KeySet) (token : Token) : Except Str PublicKey :=
  if token.method.family ≠ .rsa then
    .error ("oauth: unexpected signing method ".toList ++
      ((lookup "alg".toList token.header).elim "<nil>".toList Json.formatV))
  else
    let kid := stringClaim "kid" token.header
    if kid = [] then
      match keys with
      | [(_, k)] => .ok k
      | _ => .error "oauth: token missing kid and issuer has multiple keys".toList
    else
      match lookup kid keys with
      | none => .error ("oauth: no jwks key for kid ".toList ++ Text.quote kid)
      | some key => .ok key

def signingAlgs : List Str := ["RS256".toList, "RS384".toList, "RS512".toList]

structure Validator where
  config : Config
  jwksCache : List (Str × CacheEntry)

def newValidator (c : Config) : Except Str Validator :=
  if c.resourceURI = [] then .error "oauth: NewValidator: ResourceURI must be set".toList
  else .ok ⟨c, []⟩

/-- The lookup in the cache, under the lock. -/
def Validator.cachedKeys (v : Validator) (issuer : Str) (now : Nat) : Option KeySet :=
  ((lookup issuer v.jwksCache).filter fun e => now - e.fetchedAt < jwksCacheTTL).map CacheEntry.keys

/-- The insertion into the cache, under the lock. -/
def Validator.store (v : Validator) (issuer : Str) (keys : KeySet) (now : Nat) : Validator :=
  { v with jwksCache := setMember issuer ⟨keys, now⟩ v.jwksCache }

inductive Started where
  | refused (err : Str)
  | cached (iss : Str) (keys : KeySet)
  | missed (iss : Str)

/-- Up to the lookup in the cache. -/
def Validator.start (lib : JWT) (v : Validator) (now : Nat) (tokenString : Str) : Started :=
  match lib.parseUnverified tokenString with
  | .error e => .refused ("oauth: parse token: ".toList ++ e)
  | .ok unverified =>
    let iss := stringClaim "iss" unverified.claims
    if !issuerTrusted v.config iss then
      .refused ("oauth: issuer ".toList ++ Text.quote iss ++
        " is not a trusted authorization server".toList)
    else if !Text.hasPrefix (trimSlash iss) https then
      .refused ("oauth: resolve issuer signing keys: issuer must be https, got ".toList ++
        Text.quote (trimSlash iss))
    else
      match v.cachedKeys (trimSlash iss) now with
      | some keys => .cached iss keys
      | none => .missed iss

def optionsFor (iss : Str) : ParserOptions := ⟨signingAlgs, true, iss⟩

/-- From the keys to the result. -/
def verify (lib : JWT) (c : Config) (tokenString iss : Str) (keys : KeySet) (now : Nat) :
    Except Str Claims :=
  match lib.parseWithClaims tokenString (keyfunc keys) (optionsFor iss) now with
  | .error e => .error ("oauth: verify token: ".toList ++ e)
  | .ok claims =>
    if !audienceContains (lookup "aud".toList claims) c.resourceURI then
      .error ("oauth: token audience does not include resource ".toList ++ Text.quote c.resourceURI)
    else .ok ⟨stringClaim "sub" claims, parseScopes claims, iss, claims⟩

/-- A call that nothing interrupts, at one time. -/
def Validator.validateToken (lib : JWT) (v : Validator) (now : Nat) (answers : Answers)
    (tokenString : Str) : Except Str Claims × Validator :=
  match v.start lib now tokenString with
  | .refused e => (.error e, v)
  | .cached iss keys => (verify lib v.config tokenString iss keys now, v)
  | .missed iss =>
    match fetchKeys answers (trimSlash iss) with
    | .error e => (.error ("oauth: resolve issuer signing keys: ".toList ++ e), v)
    | .ok keys =>
      (verify lib v.config tokenString iss keys now, v.store (trimSlash iss) keys now)

inductive Phase where
  | fetching (iss : Str)
  | verifying (iss : Str) (keys : KeySet)
  | returned

structure Call where
  tokenString : Str
  lookedUpAt : Nat
  phase : Phase

/-- A fetch that gave keys, with the time at which they were put into the cache. -/
structure Fetch where
  issuer : Str
  answers : Answers
  fetchedAt : Nat

/-- The validator with its calls, those that have returned included, and its fetches so far. -/
structure Service where
  validator : Validator
  calls : Nat → Option Call
  fetches : List Fetch
  clock : Nat

inductive Action where
  | start (k now : Nat) (tokenString : Str)
  | fetch (k now : Nat) (answers : Answers)
  | verify (k now : Nat)

def Action.now : Action → Nat
  | .start _ now _ => now
  | .fetch _ now _ => now
  | .verify _ now => now

/-- What a call returns. -/
structure Returned where
  tokenString : Str
  lookedUpAt : Nat
  now : Nat
  result : Except Str Claims

def Service.setCall (s : Service) (k : Nat) (c : Call) : Service :=
  { s with calls := fun j => if j = k then some c else s.calls j }

def Service.startCall (lib : JWT) (s : Service) (k now : Nat) (tokenString : Str) :
    Service × List Returned :=
  match s.calls k with
  | some _ => (s, [])
  | none =>
    match s.validator.start lib now tokenString with
    | .refused e =>
      (s.setCall k ⟨tokenString, now, .returned⟩, [⟨tokenString, now, now, .error e⟩])
    | .cached iss keys => (s.setCall k ⟨tokenString, now, .verifying iss keys⟩, [])
    | .missed iss => (s.setCall k ⟨tokenString, now, .fetching iss⟩, [])

def Service.fetchFor (s : Service) (k now : Nat) (answers : Answers) : Service × List Returned :=
  match s.calls k with
  | some ⟨tokenString, lookedUpAt, .fetching iss⟩ =>
    match fetchKeys answers (trimSlash iss) with
    | .error e =>
      (s.setCall k ⟨tokenString, lookedUpAt, .returned⟩,
        [⟨tokenString, lookedUpAt, now,
          .error ("oauth: resolve issuer signing keys: ".toList ++ e)⟩])
    | .ok keys =>
      ({ s.setCall k ⟨tokenString, lookedUpAt, .verifying iss keys⟩ with
          validator := s.validator.store (trimSlash iss) keys now
          fetches := s.fetches ++ [⟨trimSlash iss, answers, now⟩] }, [])
  | _ => (s, [])

def Service.verifyFor (lib : JWT) (s : Service) (k now : Nat) : Service × List Returned :=
  match s.calls k with
  | some ⟨tokenString, lookedUpAt, .verifying iss keys⟩ =>
    (s.setCall k ⟨tokenString, lookedUpAt, .returned⟩,
      [⟨tokenString, lookedUpAt, now, verify lib s.validator.config tokenString iss keys now⟩])
  | _ => (s, [])

def Service.act (lib : JWT) (s : Service) (a : Action) : Service × List Returned :=
  let s := { s with clock := a.now }
  match a with
  | .start k now tokenString => s.startCall lib k now tokenString
  | .fetch k now answers => s.fetchFor k now answers
  | .verify k now => s.verifyFor lib k now

def newService (v : Validator) (clock : Nat) : Service := ⟨v, fun _ => none, [], clock⟩

def OnTime (s : Service) (a : Action) : Prop := s.clock ≤ a.now

end Janus.OAuth
