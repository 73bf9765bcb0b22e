import NekoGuard.Std.Utf8
import NekoGuard.Std.IpAddrFacts
import NekoGuard.FleetFacts
import NekoGuard.Solver
import NekoGuard.RateLimit
import NekoGuard.LoadFacts
import NekoGuard.Inject
import NekoGuard.HandleFacts
import NekoGuard.RealIpFacts
import NekoGuard.ClearanceFacts
import NekoGuard.EdgeFacts
import NekoGuard.GuardFacts
import NekoGuard.CertdFacts
import NekoGuard.TlsFacts
import NekoGuard.CertNames
import NekoGuard.CertSync
import NekoGuard.Secret
import NekoGuard.SingleFlight
import NekoGuard.Provenance
import NekoGuard.FaviconFacts
import NekoGuard.Limits
import NekoGuard.RateLimitFacts
import NekoGuard.SessionFacts
import NekoGuard.FetchFacts
import NekoGuard.EntitiesFacts
import NekoGuard.ReadHead
import NekoGuard.SameOrigin
import NekoGuard.Sweep
import NekoGuard.PatternFacts
import NekoGuard.Splice
import NekoGuard.MetaTags
import NekoGuard.Entries
import NekoGuard.HeadFacts
import NekoGuard.Body
import NekoGuard.Bodies
import NekoGuard.SendOrder
import NekoGuard.Throwing
import NekoGuard.Spacing
import NekoGuard.Insertion
import NekoGuard.Hops
import NekoGuard.Carried
import NekoGuard.Proxy
import NekoGuard.Location
import NekoGuard.Cookies
import NekoGuard.Gzip
import NekoGuard.Retained
import NekoGuard.DeadText
import NekoGuard.Lib.Gregorian
import NekoGuard.NgLog
import NekoGuard.Replay
import NekoGuard.Upgrade
import NekoGuard.SentHead
import NekoGuard.Acme
import NekoGuard.TxtRecords
import NekoGuard.OrderPolls
import NekoGuard.Lib.Replacement
import NekoGuard.References
import NekoGuard.Lib.Pipe
import NekoGuard.Lib.Watch
import NekoGuard.Punctual
import NekoGuard.Relay
import NekoGuard.Renewals
import NekoGuard.Account
import NekoGuard.Admitted
import NekoGuard.Visitor
import NekoGuard.CertView
import NekoGuard.Lib.View
import NekoGuard.SharedRedis
import NekoGuard.SharedRedisFacts
