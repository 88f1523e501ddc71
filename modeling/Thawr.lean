import Thawr.Client.Restart
import Thawr.Client.LockRaces
import Thawr.Client.Paths
import Thawr.Enforcement
import Thawr.Control.Routes
import Thawr.Client.Router
import Thawr.Server.HubFilter
import Thawr.Wg.Backends
import Thawr.Api.Sync
import Thawr.Api.Sessions
import Thawr.Control.PolicyCache
import Thawr.Control.KeyVisibility
import Thawr.Server.LockOrder
import Thawr.Server.Reached
import Thawr.Control.Path.Rounds
import Thawr.Control.Path.Rate
import Thawr.Client.PathRuns
import Thawr.Client.Hosts
import Thawr.Relay.Delivery
import Thawr.Relay.RunLoops
import Thawr.Client.PathReports
import Thawr.Client.PinOrder
import Thawr.Control.Endpoints
import Thawr.Control.Policy.Exchange
import Thawr.Lock.Encoding
import Thawr.Server.StaticPresence
import Thawr.Client.EndpointReport
import Thawr.Client.FilterOrder
import Thawr.Client.Rotation
import Thawr.Control.LockCalls
import Thawr.Client.SignedView
import Thawr.Control.SignerRuns
import Thawr.Control.FreeNames
import Thawr.Control.Limiter
import Thawr.Control.Logins
import Thawr.Control.Wants
import Thawr.Wg.Decoding
import Thawr.Wg.Flows
import Thawr.Control.Policy.Groups
import Thawr.Control.Leftovers
import Thawr.Control.Path.Order
import Thawr.Control.WantTable
import Thawr.Dns.HostsEdits
import Thawr.Relay.Codec
import Thawr.Wg.Forward
import Thawr.Wg.RouteRuns
import Thawr.Backup.Archive
import Thawr.Backup.Restore
import Thawr.Control.Path.Retries
import Thawr.Dns.Reverse
