import Janus.Lib.UrlRequest
import Janus.Lib.UrlSegments
import Janus.Portal

/-!
# Requests to the portal

What the handlers of the portal read and write, and the multiplexer in front of them: a path
is matched segment by segment after it has been cleaned, and one that is not clean is
answered by a redirect.
-/

namespace Janus.PortalServer

set_option autoImplicit false

structure Request where
  method : Str
  url : Url.URL
  host : Str
  tls : Bool
  authorization : Str
  /-- The cookie `oidc_state`. -/
  stateCookie : Option Str
  /-- An unreadable body is `none`. -/
  body : Option Str

/-- `r.URL.Path`, as text. -/
def Request.path (r : Request) : Str := Text.ofBytes r.url.path

/-- `r.URL.Query().Get`. -/
def Request.query (r : Request) (name : String) : Str :=
  (Url.valuesOf r.url.rawQuery name.toList).head?.getD []

inductive Body where
  | empty
  /-- The text of `http.Error`. -/
  | error (text : Str)
  | text (s : Str)
  | json (v : Json)
  | importResult (r : Portal.ImportResponse)
  | static
  deriving DecidableEq

/-- The cookie `oidc_state` as it is set for the paths of the sign-on. A negative lifetime
removes it. -/
structure Cookie where
  value : Str
  maxAge : Int
  deriving Repr, DecidableEq

structure Response where
  status : Nat
  body : Body
  location : Option Str
  setCookie : Option Cookie
  deriving DecidableEq

def httpError (status : Nat) (text : String) : Response := ⟨status, .error text.toList, none, none⟩

/-- An answer that the encoder writes. -/
def encoded (v : Json) : Response := ⟨200, .json v, none, none⟩

def noContent : Response := ⟨204, .empty, none, none⟩

def methodNotAllowed : Response := httpError 405 "Method not allowed"

def internalError : Response := httpError 500 "\x7b\"error\":\"internal server error\"\x7d"

/-- The first value of a body. -/
def decodeBody {α : Type} (decode : Json → Option α) (r : Request) : Option α :=
  r.body.bind fun text => (JsonText.parseValue (text.length + 1) text).bind fun p => decode p.1

/-- `path.Clean`, on the segments of a rooted path behind those that are kept already. -/
def cleanFrom : List Str → List Str → List Str
  | out, [] => out
  | out, s :: rest =>
    if s = [] || s = ['.'] then cleanFrom out rest
    else if s = ['.', '.'] then cleanFrom out.dropLast rest
    else cleanFrom (out ++ [s]) rest

def cleanPath (p : Str) : Str :=
  let p := if p.head? = some '/' then p else '/' :: p
  let np := '/' :: Text.join ['/'] (cleanFrom [] (Url.pathSegments p))
  if p.getLast? = some '/' && np ≠ ['/'] then np ++ ['/'] else np

def hexEscapeNonASCII (s : Str) : Str :=
  s.flatMap fun c => if c.toNat < 0x80 then [c] else
    (Text.bytes [c]).flatMap fun b => ['%', Url.upperHex (b / 16), Url.upperHex (b % 16)]

/-- The directory of `path.Split`. -/
def directory (p : Str) : Str := (Url.cutLast '/' p).elim [] fun (dir, _) => dir ++ ['/']

/-- `http.Redirect`, of a request for the old path, which a rooted URL does not need. The part of a local
URL before its query is cleaned, the fragment with it. -/
def redirect (oldPath url : Str) (status : Nat) : Response :=
  let isLocal := (Url.parse url).any fun u => u.scheme = [] && u.host = []
  let target :=
    if isLocal then
      let url := if url.head? = some '/' then url else directory oldPath ++ url
      let (path, query) := Url.cutAt '?' url
      cleanPath path ++ if '?' ∈ url then '?' :: query else []
    else url
  ⟨status, .static, some (hexEscapeNonASCII target), none⟩

inductive Route where
  | login
  | ssoLogin
  | ssoCallback
  | connections
  | endpoints
  | importOpenAPI
  | vault
  | logs
  | settings
  | operationalStats
  | tokens
  | openAPI
  | mockTradeVolume
  | mockNonCashCollateral
  | frontend
  deriving Repr, DecidableEq

/-- A segment as the multiplexer compares it. -/
def readSegment (s : Str) : Str := (Url.unescape .pathSegment s).elim s Text.ofBytes

/-- The patterns of `RegisterRoutes`, by the segments that they match exactly. -/
def exactRoutes : List (List Str × Route) :=
  [(["api", "auth", "login"], .login), (["api", "auth", "sso", "login"], .ssoLogin),
    (["api", "auth", "sso", "callback"], .ssoCallback), (["api", "connections"], .connections),
    (["api", "endpoints"], .endpoints), (["api", "import", "openapi"], .importOpenAPI),
    (["api", "vault"], .vault), (["api", "logs"], .logs), (["api", "settings"], .settings),
    (["api", "operational-stats"], .operationalStats), (["api", "tokens"], .tokens),
    (["api", "openapi.json"], .openAPI)].map fun p => (p.1.map String.toList, p.2)

def demoRoutes : List (List Str × Route) :=
  [(["api", "mock", "dpg", "trade-volume"], .mockTradeVolume),
    (["api", "mock", "collateral", "non-cash"], .mockNonCashCollateral)].map fun p =>
      (p.1.map String.toList, p.2)

/-- The patterns that end in a slash. -/
def subtreeRoutes : List (List Str × Route) :=
  [(["api", "connections"], .connections), (["api", "endpoints"], .endpoints)].map fun p =>
    (p.1.map String.toList, p.2)

/-- The pattern for the segments of a clean path. -/
def matchRoute (demo : Bool) (segs : List Str) : Route :=
  match (exactRoutes ++ if demo then demoRoutes else []).find? fun p => p.1 = segs with
  | some p => p.2
  | none =>
    match subtreeRoutes.find? fun p => p.1.isPrefixOf segs && p.1.length < segs.length with
    | some p => p.2
    | none => .frontend

/-- The handler of a request. One whose path is not clean has none: it is redirected. -/
def route (demo : Bool) (r : Request) : Option Route :=
  let path := r.url.escapedPath
  if cleanPath path ≠ path then none
  else some (matchRoute demo ((Url.pathSegments path).map readSegment))

/-- The routes behind `AdminAuthMiddleware`. -/
def Route.admin : Route → Bool
  | .connections | .endpoints | .importOpenAPI | .vault | .logs | .settings | .operationalStats
  | .tokens | .openAPI => true
  | .login | .ssoLogin | .ssoCallback | .mockTradeVolume | .mockNonCashCollateral | .frontend => false

end Janus.PortalServer
