import Gateon.Audit.Pages
import Gateon.Audit.Retention
import Gateon.Auth.IdentityHeaders
import Gateon.Auth.KeyRotation
import Gateon.Auth.Lockout
import Gateon.Auth.StoredLock
import Gateon.Auth.Withhold
import Gateon.Authz.GlobalBound
import Gateon.Authz.RouteBind
import Gateon.Config.GitOps
import Gateon.Config.MiddlewareKeep
import Gateon.Config.StoredSecret
import Gateon.Graphql.Firewall
import Gateon.Ha.Vrrp
import Gateon.L4.Claims
import Gateon.L4.ConfigHash
import Gateon.L4.UdpSessions
import Gateon.Logger.PerSecond
import Gateon.Middleware.CircuitBreaker
import Gateon.Proxy.Asserted
import Gateon.Proxy.Balancer
import Gateon.Proxy.Canary
import Gateon.Rule.ParseExact
import Gateon.Security.ArtTree
import Gateon.Security.Correlation
import Gateon.Security.Honeypot
import Gateon.Security.RedactMasks
import Gateon.Server.Admission
import Gateon.Stores.DbRoutes
import Gateon.Telemetry.Enforcement
import Gateon.Telemetry.KernelShun
import Gateon.Telemetry.TraceArchive
import Gateon.Telemetry.TraceBudget
import Gateon.Telemetry.TracePages
import Gateon.Traffic.Cache
import Gateon.Traffic.CompressRun
import Gateon.Traffic.Transparent
import Gateon.Waf.Cache
import Gateon.Waf.Skip
