import Janus.Cache
import Janus.Lib.JsonText
import Janus.Lib.Url
import Janus.Storage
import Janus.Vault

/-!
# The gateway client

Embedding of `pkg/gateway`: the path and the query of an endpoint are rendered, the
destination is checked, a cached body is served or a request is built with the
credentials of the connection, sent with bounded retries, and its answer is
formatted. Everything the outside decides during one call is read from `CallEnv`.
-/

namespace Janus.Gateway

set_option autoImplicit false

open Storage Cache Vault

def maxResponseBytes : Nat := 10 * 2 ^ 20

inductive IP where
  | v4 (n : Nat)
  | v6 (n : Nat)
  deriving Repr, DecidableEq

/-- An IPv4 address in IPv6 clothing is the IPv4 address. -/
def IP.unmap : IP → IP
  | .v4 n => .v4 n
  | .v6 n => if n / 2 ^ 32 = 0xFFFF then .v4 (n % 2 ^ 32) else .v6 n

def isDisallowedIP (addr : IP) : Bool :=
  match addr.unmap with
  | .v4 n =>
    n / 2 ^ 24 = 127 || n / 2 ^ 24 = 10 || n / 2 ^ 20 = 172 * 16 + 1 || n / 2 ^ 16 = 192 * 256 + 168 ||
      n / 2 ^ 16 = 169 * 256 + 254 || n / 2 ^ 8 = 224 * 65536 || n = 0
  | .v6 n =>
    n = 1 || n / 2 ^ 121 = 0xFC / 2 || n / 2 ^ 118 = 0xFE80 / 64 ||
      (n / 2 ^ 112 / 256 = 0xFF && n / 2 ^ 112 % 16 = 2) || n = 0

structure EgressPolicy where
  allowlist : List Str
  allowPrivate : Bool
  deriving Repr, DecidableEq

/-- The client with its configuration and its caches. -/
structure Client where
  egress : EgressPolicy
  secretCache : TTLCache Str
  respCache : TTLCache Str
  maxRetries : Nat
  deriving Repr, DecidableEq

/-- What one attempt to send the request comes to. -/
inductive Attempt where
  | transportError (cause : Str)
  | readError (cause : Str)
  | reply (status : Nat) (body : Str)
  deriving Repr, DecidableEq

/-- What the outside decides during one call, which lasts from `now` to `done`. -/
structure CallEnv where
  now : Nat
  done : Nat
  lookupIP : Str → Except Str (List IP)
  vaultFault : Option Str
  /-- The context ended while the client waited before this attempt. -/
  cancelled : Nat → Option Str
  attempt : Nat → Attempt

inductive EgressError where
  | scheme (scheme : Str)
  | emptyHost
  | notInAllowlist (host : Str)
  | unresolved (host cause : Str)
  | nonPublic (addr : IP) (host : Str)
  deriving Repr, DecidableEq

inductive ExecError where
  | invalidURL (url : Str)
  | egressDenied (e : EgressError)
  | invalidMethod (method : Str)
  | invalidRequestURL (url : Str)
  | secret (e : VaultError)
  | basicFormat
  | headersFormat
  | authType (t : Str)
  | cancelled (cause : Str)
  | requestFailed (cause : Str)
  | unreadableBody (cause : Str)
  | tooLarge
  | retriesExhausted (status : Nat)
  | targetStatus (status : Nat) (body : Str)
  deriving Repr, DecidableEq

def decimal (n : Nat) : Str := natDigits n

def hexGroup (n : Nat) : Str := Nat.toDigits 16 n

/-- The longest run of zero groups, as its start and length; a run of one does not count. -/
def zeroRun : Nat → List Nat → Nat × Nat → Nat × Nat
  | _, [], best => best
  | i, g :: gs, best =>
    let n := ((g :: gs).takeWhile (· = 0)).length
    zeroRun (i + 1) gs (if 2 ≤ n && best.2 < n then (i, n) else best)

def IP.text : IP → Str
  | .v4 n => Text.join ['.'] ([n / 2 ^ 24, n / 2 ^ 16 % 256, n / 2 ^ 8 % 256, n % 256].map decimal)
  | .v6 n =>
    let groups := (List.range 8).map fun i => n / 2 ^ (16 * (7 - i)) % 65536
    let (i, len) := zeroRun 0 groups (0, 0)
    let text (gs : List Nat) := Text.join [':'] (gs.map hexGroup)
    if len = 0 then text groups
    else text (groups.take i) ++ "::".toList ++ text (groups.drop (i + len))

def EgressError.message : EgressError → Str
  | .scheme s => "blocked URL scheme ".toList ++ Text.quote s ++ " (only http/https allowed)".toList
  | .emptyHost => "blocked request: empty host".toList
  | .notInAllowlist h =>
    "blocked request: host ".toList ++ Text.quote h ++ " is not in the egress allowlist".toList
  | .unresolved h cause => "failed to resolve host ".toList ++ Text.quote h ++ ": ".toList ++ cause
  | .nonPublic addr h =>
    "blocked request to non-public address ".toList ++ addr.unmap.text ++ " (host ".toList ++
      Text.quote h ++ ")".toList

def ExecError.message : ExecError → Str
  | .invalidURL url => "invalid rendered URL ".toList ++ Text.quote url
  | .egressDenied e => "egress denied: ".toList ++ e.message
  | .invalidMethod m =>
    "failed to create http request: net/http: invalid method ".toList ++ Text.quote m
  | .invalidRequestURL url =>
    "failed to create http request: parse ".toList ++ Text.quote url
  | .secret e => "failed to retrieve authorization secret from vault: ".toList ++ e.message
  | .basicFormat => "basic auth secret must be in 'username:password' format".toList
  | .headersFormat => "custom headers secret must be a valid JSON map".toList
  | .authType t => "unsupported auth type: ".toList ++ t
  | .cancelled cause => cause
  | .requestFailed cause => "http request failed: ".toList ++ cause
  | .unreadableBody cause => "failed to read response body: ".toList ++ cause
  | .tooLarge =>
    "response body exceeds maximum allowed size of ".toList ++ decimal maxResponseBytes ++
      " bytes".toList
  | .retriesExhausted status => "target API returned status ".toList ++ decimal status
  | .targetStatus status body =>
    "target API returned error status ".toList ++ decimal status ++ ": ".toList ++ body

/-- A decoded argument map, in the order of one iteration over it. -/
abbrev Params := List (Str × Json)

def placeholder (k : Str) : Str := '{' :: '{' :: (k ++ ['}', '}'])

def renderPath (path : Str) (params : Params) : Str :=
  params.foldl (fun p (k, v) => Text.replaceAll p (placeholder k) (Url.pathEscape v.formatV)) path

def joinURL (baseURL path : Str) : Str :=
  Text.trimSuffix baseURL ['/'] ++ '/' :: Text.trimPrefix path ['/']

/-- The query of a GET request: the arguments that the path template does not name. -/
def queryParams (path : Str) (params : Params) (q : Url.Values) : Url.Values :=
  params.foldl (fun q (k, v) =>
    if Text.containsSub path (placeholder k) then q else q.set k v.formatV) q

def withQuery (ep : APIEndpoint) (params : Params) (u : Url.URL) : Url.URL :=
  if ep.method = "GET".toList then
    { u with rawQuery := (queryParams ep.path params (Url.parseQuery u.rawQuery)).encode }
  else u

/-- One argument put into a body template: first where the placeholder is a whole string
literal, then everywhere else without the quotes. -/
def renderParam (body : Str) (k : Str) (v : Json) : Str :=
  let rawVal := v.marshal
  let body := Text.replaceAll body ('"' :: placeholder k ++ ['"']) rawVal
  Text.replaceAll body (placeholder k) (Text.trim (· = '"') rawVal)

def renderTemplate (template : Str) (params : Params) : Str :=
  params.foldl (fun b (k, v) => renderParam b k v) template

/-- The request body, where the method has one. Without a template it is the encoded
argument map, or `null` when no map was given. -/
def renderBody (ep : APIEndpoint) (args : Option Params) : Option Str :=
  if ep.method ≠ "GET".toList && ep.method ≠ "DELETE".toList then
    some (if ep.template ≠ [] then renderTemplate ep.template (args.getD [])
      else Json.marshal ((args.map Json.obj).getD .null))
  else none

def checkHost (egress : EgressPolicy) (lookupIP : Str → Except Str (List IP)) (host : Str) :
    Except EgressError Unit :=
  if egress.allowlist ≠ [] && !egress.allowlist.any (fun h => Text.equalFold h host) then
    .error (.notInAllowlist host)
  else if egress.allowPrivate then .ok ()
  else
    match lookupIP host with
    | .error cause => .error (.unresolved host cause)
    | .ok ips =>
      match ips.find? isDisallowedIP with
      | some addr => .error (.nonPublic addr host)
      | none => .ok ()

def validateEgress (egress : EgressPolicy) (lookupIP : Str → Except Str (List IP)) (u : Url.URL) :
    Except EgressError Unit :=
  if u.scheme ≠ "http".toList && u.scheme ≠ "https".toList then .error (.scheme u.scheme)
  else if u.hostname = [] then .error .emptyHost
  else checkHost egress lookupIP u.hostname

inductive Credential where
  | none
  | bearer (secret : Str)
  | basic (username password : Str)
  | headers (hs : List (Str × Str))
  deriving Repr, DecidableEq

def getSecret (env : CallEnv) (vault : Provider) (ref : Str) (c : Client) :
    Except VaultError Str × Client :=
  match c.secretCache.get env.now ref with
  | some v => (.ok v, c)
  | none =>
    match vault.getSecret env.vaultFault ref with
    | .error e => (.error e, c)
    | .ok v => (.ok v, { c with secretCache := c.secretCache.set env.now ref v })

def decodeHeaders (secret : Str) : Option (List (Str × Str)) :=
  (JsonText.parse secret).bind fun
    | .obj ms => ms.foldlM (fun acc (k, v) =>
        match v with
        | .str s => some (setMember k s acc)
        | .null => some (setMember k [] acc)
        | _ => none) []
    | .null => some []
    | _ => none

def credentialOf (authType secret : Str) : Except ExecError Credential :=
  if authType = "bearer".toList then .ok (.bearer secret)
  else if authType = "basic".toList then
    match Text.cut ':' secret with
    | some (user, pass) => .ok (.basic user pass)
    | none => .error .basicFormat
  else if authType = "custom_headers".toList then
    match decodeHeaders secret with
    | some hs => .ok (.headers hs)
    | none => .error .headersFormat
  else .error (.authType authType)

/-- The credentials that a connection attaches to its requests. -/
def injectAuth (env : CallEnv) (vault : Provider) (conn : APIConnection) (c : Client) :
    Except ExecError Credential × Client :=
  if conn.authType ≠ "none".toList && conn.authSecretRef ≠ [] then
    match getSecret env vault conn.authSecretRef c with
    | (.error e, c) => (.error (.secret e), c)
    | (.ok v, c) => (credentialOf conn.authType v, c)
  else (.ok .none, c)

structure Request where
  method : Str
  url : Str
  body : Option Str
  credential : Credential
  deriving Repr, DecidableEq

def isTokenChar (c : Char) : Bool := Url.isAlnum c.toNat || Url.isOneOf c.toNat "!#$%&'*+-.^_|~" || c.toNat = 0x60

/-- An empty method means GET; any other has to be a token. -/
def requestMethod (method : Str) : Option Str :=
  if method = [] then some "GET".toList
  else if method.all isTokenChar then some method
  else none

def isIdempotent (method : Str) : Bool :=
  method = "GET".toList || method = "HEAD".toList || method = "OPTIONS".toList

inductive AttemptResult where
  | done (r : Except ExecError (Nat × Str))
  | again (e : ExecError)

/-- Attempt number `k`; the wait before it can be cut short. -/
def runAttempt (env : CallEnv) (method : Str) (mayRetry : Bool) (k : Nat) : AttemptResult :=
  match if k > 0 then env.cancelled k else none with
  | some cause => .done (.error (.cancelled cause))
  | none =>
    match env.attempt k with
    | .transportError cause => .again (.requestFailed cause)
    | .readError cause => .again (.unreadableBody cause)
    | .reply status body =>
      if (Text.bytes body).length > maxResponseBytes then .done (.error .tooLarge)
      else if status ≥ 500 && isIdempotent method && mayRetry then .again (.retriesExhausted status)
      else .done (.ok (status, body))

/-- Attempt number `k` with `left` more allowed. -/
def retryFrom (env : CallEnv) (method : Str) : Nat → Nat → Except ExecError (Nat × Str)
  | 0, k =>
    match runAttempt env method false k with
    | .done r => r
    | .again e => .error e
  | left + 1, k =>
    match runAttempt env method true k with
    | .done r => r
    | .again _ => retryFrom env method left (k + 1)

def doWithRetry (env : CallEnv) (maxRetries : Nat) (method : Str) : Except ExecError (Nat × Str) :=
  retryFrom env method (if isIdempotent method then maxRetries else 0) 0

/-- Where the formatter is in the text it copies. -/
structure IndentState where
  inString : Bool
  escaped : Bool
  needIndent : Bool
  depth : Nat
  started : Bool

def newline (depth : Nat) : Str := '\n' :: List.replicate (2 * depth) ' '

/-- One character of valid JSON text. White space between tokens is dropped, behind the
value it is kept. -/
def indentChar (st : IndentState) (c : Char) : IndentState × Str :=
  if st.inString then
    if st.escaped then ({ st with escaped := false }, [c])
    else if c = '\\' then ({ st with escaped := true }, [c])
    else ({ st with inString := c ≠ '"' }, [c])
  else if JsonText.isSpace c then
    (st, if st.started && st.depth = 0 && !st.needIndent then [c] else [])
  else if c = '}' || c = ']' then
    if st.needIndent then ({ st with needIndent := false }, [c])
    else ({ st with depth := st.depth - 1 }, newline (st.depth - 1) ++ [c])
  else
    let (st, before) :=
      if st.needIndent then ({ st with needIndent := false, depth := st.depth + 1 }, newline (st.depth + 1))
      else (st, [])
    let st := { st with started := true }
    if c = '"' then ({ st with inString := true }, before ++ [c])
    else if c = '{' || c = '[' then ({ st with needIndent := true }, before ++ [c])
    else if c = ',' then (st, before ++ c :: newline st.depth)
    else if c = ':' then (st, before ++ [c, ' '])
    else (st, before ++ [c])

def indentFrom : IndentState → Str → Str
  | _, [] => []
  | st, c :: cs =>
    let (st, out) := indentChar st c
    out ++ indentFrom st cs

def indent (s : Str) : Str := indentFrom ⟨false, false, false, 0, false⟩ s

def formatOutput (body : Str) : Str := if (JsonText.parse body).isSome then indent body else body

/-- The text or error of a call, the request it sent, and the client afterwards. -/
structure CallResult where
  result : Except ExecError Str
  request : Option Request
  client : Client

def cacheKey (ep : APIEndpoint) (u : Url.URL) : Str := ep.method ++ ' ' :: u.string

/-- The destination of a call: parsed, checked, and with its query. -/
def resolveURL (egress : EgressPolicy) (env : CallEnv) (conn : APIConnection) (ep : APIEndpoint)
    (params : Params) : Except ExecError Url.URL :=
  let full := joinURL conn.baseURL (renderPath ep.path params)
  match Url.parse full with
  | none => .error (.invalidURL full)
  | some u =>
    match validateEgress egress env.lookupIP u with
    | .error e => .error (.egressDenied e)
    | .ok () => .ok (withQuery ep params u)

/-- The request before it has credentials. -/
def newRequest (ep : APIEndpoint) (args : Option Params) (u : Url.URL) : Except ExecError Request :=
  match requestMethod ep.method with
  | none => .error (.invalidMethod ep.method)
  | some method =>
    if (Url.parse u.string).isNone then .error (.invalidRequestURL u.string)
    else .ok ⟨method, u.string, renderBody ep args, .none⟩

/-- What the client makes of the answer. -/
def readReply (reply : Except ExecError (Nat × Str)) : Except ExecError Str :=
  match reply with
  | .error e => .error e
  | .ok (status, body) =>
    if status ≥ 400 then .error (.targetStatus status body) else .ok (formatOutput body)

/-- The call after a cache miss. -/
def fetch (env : CallEnv) (vault : Provider) (conn : APIConnection) (ep : APIEndpoint)
    (args : Option Params) (u : Url.URL) (c : Client) : CallResult :=
  match newRequest ep args u with
  | .error e => ⟨.error e, none, c⟩
  | .ok req =>
    match injectAuth env vault conn c with
    | (.error e, c) => ⟨.error e, none, c⟩
    | (.ok credential, c) =>
      let req := { req with credential := credential }
      match readReply (doWithRetry env c.maxRetries ep.method) with
      | .error e => ⟨.error e, some req, c⟩
      | .ok out =>
        if ep.method = "GET".toList then
          ⟨.ok out, some req, { c with respCache := c.respCache.set env.done (cacheKey ep u) out }⟩
        else ⟨.ok out, some req, c⟩

/-- The cached body of a GET request. -/
def cachedBody (env : CallEnv) (ep : APIEndpoint) (u : Url.URL) (c : Client) : Option Str :=
  if ep.method = "GET".toList then c.respCache.get env.now (cacheKey ep u) else none

def executeCall (env : CallEnv) (vault : Provider) (conn : APIConnection) (ep : APIEndpoint)
    (args : Option Params) (c : Client) : CallResult :=
  match resolveURL c.egress env conn ep (args.getD []) with
  | .error e => ⟨.error e, none, c⟩
  | .ok u =>
    match cachedBody env ep u c with
    | some v => ⟨.ok v, none, c⟩
    | none => fetch env vault conn ep args u c

theorem newRequest_ok {ep : APIEndpoint} {args : Option Params} {u : Url.URL} {req : Request}
    (h : newRequest ep args u = .ok req) :
    requestMethod ep.method = some req.method ∧ req.url = u.string ∧ (Url.parse u.string).isSome ∧
      req.body = renderBody ep args := by
  unfold newRequest at h
  split at h
  · cases h
  · rename_i method hmethod
    split at h
    · cases h
    · rename_i hparse
      cases h
      exact ⟨hmethod, rfl, by simpa [Option.isSome_iff_ne_none] using hparse, rfl⟩

/-- A request that is sent is the one that was built, with the credentials. -/
theorem fetch_request {env : CallEnv} {vault : Provider} {conn : APIConnection} {ep : APIEndpoint}
    {args : Option Params} {u : Url.URL} {c : Client} {req : Request}
    (h : (fetch env vault conn ep args u c).request = some req) :
    ∃ built, newRequest ep args u = .ok built ∧ req = { built with credential := req.credential } := by
  unfold fetch at h
  split at h
  · cases h
  · rename_i built hbuilt
    refine ⟨built, hbuilt, ?_⟩
    split at h
    · cases h
    · dsimp only at h
      split at h
      · cases h
        rfl
      · split at h
        · cases h
          rfl
        · cases h
          rfl

/-- The request of a call is built for the resolved URL. -/
theorem executeCall_built {env : CallEnv} {vault : Provider} {conn : APIConnection}
    {ep : APIEndpoint} {args : Option Params} {c : Client} {req : Request}
    (h : (executeCall env vault conn ep args c).request = some req) :
    ∃ u built, resolveURL c.egress env conn ep (args.getD []) = .ok u ∧
      newRequest ep args u = .ok built ∧ req = { built with credential := req.credential } := by
  unfold executeCall at h
  cases hu : resolveURL c.egress env conn ep (args.getD []) with
  | error e => simp [hu] at h
  | ok u =>
    simp only [hu] at h
    split at h
    · cases h
    · obtain ⟨built, hbuilt, hreq⟩ := fetch_request h
      exact ⟨u, built, rfl, hbuilt, hreq⟩

/-- A request goes to the resolved URL and has the rendered body. -/
theorem executeCall_request {env : CallEnv} {vault : Provider} {conn : APIConnection}
    {ep : APIEndpoint} {args : Option Params} {c : Client} {req : Request}
    (h : (executeCall env vault conn ep args c).request = some req) :
    ∃ u, resolveURL c.egress env conn ep (args.getD []) = .ok u ∧ req.url = u.string ∧
      req.body = renderBody ep args := by
  obtain ⟨u, built, hu, hbuilt, hreq⟩ := executeCall_built h
  obtain ⟨_, hurl, _, hbody⟩ := newRequest_ok hbuilt
  exact ⟨u, hu, by rw [hreq, ← hurl], by rw [hreq, ← hbody]⟩

end Janus.Gateway
