import Janus.OpenApi
import Janus.Storage

/-!
# The OpenAPI import of the admin portal

Embedding of `handleOpenAPIImport`: the request body is parsed, and the connection
and its endpoints are written one statement after the other.
-/

namespace Janus.Portal

set_option autoImplicit false

open Storage OpenApi

/-- What the handler reads from the request; an unreadable body is `none`. -/
structure ImportRequest where
  isPost : Bool
  body : Option Str
  toolPrefix : Str
  dryRun : Str
  deriving Repr, DecidableEq

/-- The generated identifiers and the statements the store refuses: the connection's
is number 0, the endpoints' follow. -/
structure ImportEnv where
  connectionID : Str
  endpointID : Nat → Str
  fails : Nat → Bool

inductive ImportResponse where
  | methodNotAllowed
  | unreadableBody
  | emptyBody
  | parseError (e : ParseError)
  | missingTitleOrServer
  | preview (parsed : ParsedConnection)
  | storeError
  | created (connectionID connectionName : Str) (toolNames : List Str)
  deriving Repr, DecidableEq

def ImportResponse.status : ImportResponse → Nat
  | .methodNotAllowed => 405
  | .unreadableBody | .emptyBody | .parseError _ | .missingTitleOrServer => 400
  | .preview _ | .created _ _ _ => 200
  | .storeError => 500

def importedConnection (env : ImportEnv) (parsed : ParsedConnection) : APIConnection where
  id := env.connectionID
  name := parsed.name
  description := []
  baseURL := parsed.baseURL
  authType := parsed.authType
  authSecretRef := []
  enabled := true
  toolPrefix := []

def importedEndpoint (id connectionID : Str) (pe : ParsedEndpoint) : APIEndpoint where
  id := id
  connectionID := connectionID
  toolName := pe.toolName
  toolDescription := pe.toolDescription
  path := pe.path
  method := pe.method
  parametersSchema := pe.parametersSchema
  template := []
  definitionHash := []
  version := 0

/-- The loop over the parsed endpoints, of which `i` have been written. It reports
whether it came to its end. -/
def saveEndpoints (env : ImportEnv) :
    Nat → List ParsedEndpoint → DB → Bool × DB
  | _, [], db => (true, db)
  | i, pe :: pes, db =>
    match db.saveEndpoint (env.fails (i + 1))
        (importedEndpoint (env.endpointID i) env.connectionID pe) with
    | .error _ => (false, db)
    | .ok db' => saveEndpoints env (i + 1) pes db'

def persist (env : ImportEnv) (parsed : ParsedConnection) (db : DB) :
    ImportResponse × DB :=
  match db.saveConnection (env.fails 0) (importedConnection env parsed) with
  | .error _ => (.storeError, db)
  | .ok db' =>
    match saveEndpoints env 0 parsed.endpoints db' with
    | (false, db'') => (.storeError, db'')
    | (true, db'') =>
      (.created env.connectionID parsed.name (parsed.endpoints.map ParsedEndpoint.toolName), db'')

/-- The part before the writes: what is to be imported, or the answer. -/
def readImport (yaml : Str → Option Yaml) (req : ImportRequest) :
    Except ImportResponse ParsedConnection :=
  if !req.isPost then .error .methodNotAllowed
  else
    match req.body with
    | none => .error .unreadableBody
    | some body =>
      let body := Text.takeBytes (10 * 2 ^ 20) body
      if body = [] then .error .emptyBody
      else
        match parse yaml body ⟨req.toolPrefix⟩ with
        | .error e => .error (.parseError e)
        | .ok parsed =>
          if parsed.name = [] || parsed.baseURL = [] then .error .missingTitleOrServer
          else .ok parsed

def handleOpenAPIImport (yaml : Str → Option Yaml) (env : ImportEnv)
    (req : ImportRequest) (db : DB) : ImportResponse × DB :=
  match readImport yaml req with
  | .error resp => (resp, db)
  | .ok parsed =>
    if Text.equalFold req.dryRun "true".toList then (.preview parsed, db)
    else persist env parsed db

end Janus.Portal
