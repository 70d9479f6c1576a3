import Ucorf.BigEndian
import Ucorf.Framing
import Ucorf.Threads
import Ucorf.Message
import Ucorf.Server
import Ucorf.ServerFraming
import Ucorf.Dispatcher
import Ucorf.Client
import Ucorf.ClientSections
import Ucorf.ClientInvariant
import Ucorf.ClientAccounting
import Ucorf.ClientDelivery
import Ucorf.ClientNumbers
import Ucorf.ClientCorrelation
import Ucorf.ClientDisconnect
import Ucorf.ClientReconnect
import Ucorf.Finder
import Ucorf.FinderEvents
import Ucorf.Scripts
import Ucorf.Zookeeper
import Ucorf.ZookeeperFrames
import Ucorf.ZookeeperHandles
import Ucorf.ZookeeperRegister
import Ucorf.ZookeeperUnregister
import Ucorf.ZookeeperWatch
import Ucorf.ClientReceive
import Ucorf.HeaderCodec
import Ucorf.ClientFraming
import Ucorf.ReceiveSafety
import Ucorf.ServerReplies
import Ucorf.ReplyDelivery
import Ucorf.Transparency
import Ucorf.ClientWindow
import Ucorf.FinderConnections
import Ucorf.Conhash
import Ucorf.HproseProtocol
import Ucorf.HproseRoundTrip
import Ucorf.HproseService
import Ucorf.HproseTransparency
import Ucorf.ConhashHistory
import Ucorf.HashDispatch
import Ucorf.HproseIntegers
import Ucorf.HproseRequests
import Ucorf.HproseResponses
import Ucorf.ReceiveWaiting
import Ucorf.FinderReconcile
import Ucorf.FinderWatches
import Ucorf.HproseText
import Ucorf.DispatcherGets
import Ucorf.DispatcherHistory
import Ucorf.RegisterFailure
import Ucorf.ZookeeperTree
import Ucorf.ZookeeperRetries
import Ucorf.HproseDates
import Ucorf.PrefixCodes
import Ucorf.ProtocGenRpc
import Ucorf.ProtocGenFiles
import Ucorf.HproseChars
import Ucorf.Brackets
import Ucorf.ProtocGenBraces
import Ucorf.Sessions
import Ucorf.Handlers
import Ucorf.HproseSessions
import Ucorf.ClientProvenance
import Ucorf.Discovery
import Ucorf.FinderDestroyed
import Ucorf.ZookeeperNodes
import Ucorf.HproseReplies
import Ucorf.GeneratedCode
import Ucorf.ProtocGenTokens
import Ucorf.ProtocGenMeaning
import Ucorf.HashRouting
import Ucorf.ZookeeperReconnects
import Ucorf.Leases
import Ucorf.Registration
