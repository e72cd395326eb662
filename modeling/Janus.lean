import Janus.Lib.Sha256
import Janus.Storage
import Janus.ImportAtomicity
import Janus.Redaction
import Janus.Listing
import Janus.Revocation
import Janus.ResultMasking
import Janus.AdminTools
import Janus.ResponseCache
import Janus.PathParams
import Janus.BodyInjection
import Janus.NonAdmin
import Janus.RowOrder
import Janus.HashBehaviour
import Janus.ImportCli
import Janus.EgressDial
import Janus.CallSnapshot
import Janus.ReadAfterWrite
import Janus.Orphans
import Janus.VaultFailures
import Janus.VaultProviders
import Janus.VaultContents
import Janus.SecretRotation
import Janus.SseSessions
import Janus.KeyIsolation
import Janus.AuditTrail
import Janus.RateLimiter
import Janus.HealthCheck
import Janus.MapRedaction
import Janus.Lib.JsonLexing
import Janus.QuotedText
import Janus.Cleanness
import Janus.JsonRedaction
import Janus.KeyedSecrets
import Janus.JsonAgreement
import Janus.CardNumbers
import Janus.Quietness
import Janus.RuleOrder
import Janus.CallTarget
import Janus.CallArguments
import Janus.IntegerArguments
import Janus.Retries
import Janus.CallPath
import Janus.CallQuery
import Janus.RenderOrder
import Janus.CacheRuns
import Janus.QueryLog
import Janus.PortalDeletes
import Janus.MetadataUrl
import Janus.SseFraming
import Janus.CliModify
import Janus.ResponseIds
import Janus.YamlConversion
import Janus.DocumentOperations
import Janus.RuleSplice
import Janus.Luhn
import Janus.BaseNames
import Janus.Lib.Base64Url
import Janus.Auth
import Janus.PortalRequests
import Janus.Startup
import Janus.SingleSignOn
import Janus.PortalRecords
import Janus.ApiReference
import Janus.PortalServer
import Janus.SessionTokens
import Janus.PortalSessions
import Janus.PortalSecrecy
import Janus.SignOnBrowsers
import Janus.GatewayProcess
import Janus.ClientRoster
import Janus.Lib.Placeholders
import Janus.Statements
import Janus.SignedOnIdentity
import Janus.Lib.NumberShortest
import Janus.Lib.JsonDecoded
import Janus.ImportedTools
import Janus.ConfiguredRequests
import Janus.CliWire
import Janus.HttpFront
