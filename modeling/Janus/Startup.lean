import Janus.Lib.NumberIntegers
import Janus.Lib.Url

/-!
# The configuration

Embedding of `LoadConfig`: the settings are read from the environment, and the process
refuses to start on secrets that are missing or short and on settings that do not fit
together.
-/

namespace Janus.Startup

set_option autoImplicit false

/-- `os.LookupEnv`. -/
abbrev Environment := Str → Option Str

/-- Lifetimes are in nanoseconds. -/
structure Config where
  port : Str
  databasePath : Str
  vaultProvider : Str
  vaultLocalPath : Str
  vaultEncryptionKey : Str
  jwtSecret : Str
  oidcIssuer : Str
  oidcClientID : Str
  oidcClientSecret : Str
  oidcDefaultRole : Str
  gatewayToken : Str
  tlsCertPath : Str
  tlsKeyPath : Str
  clientCAPath : Str
  tlsTerminatedAtProxy : Bool
  mtlsMode : Str
  adminUsername : Str
  adminPassword : Str
  publicBaseURL : Str
  seedDemoData : Bool
  egressAllowlist : List Str
  egressAllowPrivate : Bool
  corsAllowedOrigins : List Str
  metricsToken : Str
  configCacheTTL : Int
  secretCacheTTL : Int
  responseCacheTTL : Int
  dbMaxOpenConns : Int
  dbMaxIdleConns : Int
  downstreamRetries : Int
  oauthEnabled : Bool
  oauthResourceURI : Str
  oauthAuthorizationServers : List Str
  oauthScopesSupported : List Str
  redactionEnabled : Bool
  toolPinningStrict : Bool
  deriving DecidableEq

section Read

variable (env : Environment)

def getEnv (key : String) (defaultVal : Str) : Str := (env key.toList).getD defaultVal

/-- `os.Getenv`. -/
def getenv (key : String) : Str := getEnv env key []

def truthWords : List Str := ["1".toList, "true".toList, "yes".toList, "on".toList]

/-- Beyond ASCII nothing has a lower case that occurs in the four words. -/
def getBool (key : String) (defaultVal : Bool) : Bool :=
  match env key.toList with
  | none => defaultVal
  | some v => Url.lower (Text.trimSpace v) ∈ truthWords

/-- `time.ParseDuration` is given. -/
def getDuration (parseDuration : Str → Option Int) (key : String) (defaultVal : Int) : Int :=
  match env key.toList with
  | none => defaultVal
  | some v => if Text.trimSpace v = [] then defaultVal else (parseDuration v).getD defaultVal

/-- `strconv.Atoi`. -/
def atoi (s : Str) : Option Int :=
  let digits := if Text.hasPrefix s ['-'] || Text.hasPrefix s ['+'] then s.drop 1 else s
  if digits = [] || !digits.all Char.isDigit then none
  else
    let n : Int := if Text.hasPrefix s ['-'] then -digitsVal digits else digitsVal digits
    if -2 ^ 63 ≤ n && n < 2 ^ 63 then some n else none

def getInt (key : String) (defaultVal : Int) : Int :=
  match env key.toList with
  | none => defaultVal
  | some v =>
    if Text.trimSpace v = [] then defaultVal else (atoi (Text.trimSpace v)).getD defaultVal

def splitList (v : Str) : List Str :=
  if Text.trimSpace v = [] then []
  else ((Text.splitOn ',' v).map Text.trimSpace).filter fun t => t ≠ []

def databaseURL : Str :=
  let dbURL := getEnv env "DATABASE_URL" []
  if dbURL = [] then getEnv env "DATABASE_PATH" "./mcp-gateway.db".toList else dbURL

def readConfig (parseDuration : Str → Option Int) : Config where
  port := getEnv env "PORT" "8080".toList
  databasePath := databaseURL env
  vaultProvider := getEnv env "VAULT_PROVIDER" "local".toList
  vaultLocalPath := getEnv env "VAULT_LOCAL_PATH" "./secrets.json".toList
  vaultEncryptionKey := getenv env "VAULT_ENCRYPTION_KEY"
  jwtSecret := getenv env "JWT_SECRET"
  oidcIssuer := getEnv env "OIDC_ISSUER" []
  oidcClientID := getEnv env "OIDC_CLIENT_ID" []
  oidcClientSecret := getenv env "OIDC_CLIENT_SECRET"
  oidcDefaultRole := getEnv env "OIDC_DEFAULT_ROLE" "viewer".toList
  gatewayToken := getenv env "GATEWAY_TOKEN"
  tlsCertPath := getEnv env "TLS_CERT_PATH" []
  tlsKeyPath := getEnv env "TLS_KEY_PATH" []
  clientCAPath := getEnv env "CLIENT_CA_PATH" []
  tlsTerminatedAtProxy := getBool env "TLS_TERMINATED_AT_PROXY" false
  mtlsMode := getEnv env "MTLS_MODE" "off".toList
  adminUsername := getEnv env "ADMIN_USERNAME" "admin".toList
  adminPassword := getenv env "ADMIN_PASSWORD"
  publicBaseURL := getEnv env "PUBLIC_BASE_URL" []
  seedDemoData := getBool env "SEED_DEMO_DATA" false
  egressAllowlist := splitList (getenv env "EGRESS_ALLOWLIST")
  egressAllowPrivate := getBool env "EGRESS_ALLOW_PRIVATE" false
  corsAllowedOrigins := splitList (getenv env "CORS_ALLOWED_ORIGINS")
  metricsToken := getenv env "METRICS_TOKEN"
  configCacheTTL := getDuration env parseDuration "CONFIG_CACHE_TTL" (5 * 10 ^ 9)
  secretCacheTTL := getDuration env parseDuration "SECRET_CACHE_TTL" (30 * 10 ^ 9)
  responseCacheTTL := getDuration env parseDuration "RESPONSE_CACHE_TTL" 0
  dbMaxOpenConns := getInt env "DB_MAX_OPEN_CONNS" 10
  dbMaxIdleConns := getInt env "DB_MAX_IDLE_CONNS" 10
  downstreamRetries := getInt env "DOWNSTREAM_RETRIES" 2
  oauthEnabled := getBool env "OAUTH_ENABLED" false
  oauthResourceURI := getEnv env "OAUTH_RESOURCE_URI" []
  oauthAuthorizationServers := splitList (getenv env "OAUTH_AUTHORIZATION_SERVERS")
  oauthScopesSupported := splitList (getenv env "OAUTH_SCOPES_SUPPORTED")
  redactionEnabled := getBool env "REDACTION_ENABLED" false
  toolPinningStrict := getBool env "TOOL_PINNING_STRICT" false

end Read

def minSecretLen : Nat := 32

/-- The length of a string, in bytes. -/
def len (s : Str) : Nat := (Text.bytes s).length

def tooShort (name : String) (secret : Str) : Str :=
  name.toList ++ " must be set and at least 32 bytes (got ".toList ++ natDigits (len secret) ++
    ")".toList

def mtlsModes : List Str := [[], "off".toList, "optional".toList, "required".toList]

/-- The first check that fails, in the order of the source. -/
def validate (c : Config) : Option Str :=
  if len c.jwtSecret < minSecretLen then some (tooShort "JWT_SECRET" c.jwtSecret)
  else if len c.gatewayToken < minSecretLen then some (tooShort "GATEWAY_TOKEN" c.gatewayToken)
  else if c.adminPassword ≠ [] && len c.adminPassword < 12 then
    some "ADMIN_PASSWORD, when set, must be at least 12 characters".toList
  else if c.vaultProvider = "postgres".toList &&
      !Text.hasPrefix c.databasePath "postgres://".toList then
    some ("VAULT_PROVIDER=postgres requires a Postgres database ".toList ++
      "(DATABASE_URL must start with postgres://); got a non-Postgres DatabasePath".toList)
  else if c.oauthEnabled && c.oauthResourceURI = [] then
    some "OAUTH_ENABLED=true requires OAUTH_RESOURCE_URI to be set".toList
  else if c.oauthEnabled && c.oauthAuthorizationServers = [] then
    some "OAUTH_ENABLED=true requires OAUTH_AUTHORIZATION_SERVERS to be set".toList
  else if c.mtlsMode ∉ mtlsModes then
    some ("MTLS_MODE must be one of \"off\", \"optional\", \"required\" (got ".toList ++
      Text.quote c.mtlsMode ++ ")".toList)
  else none

def loadConfig (env : Environment) (parseDuration : Str → Option Int) : Except Str Config :=
  match validate (readConfig env parseDuration) with
  | some err => .error err
  | none => .ok (readConfig env parseDuration)

end Janus.Startup
