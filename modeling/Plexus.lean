import Plexus.Stream.EgressRuns
import Plexus.Stream.FrameArithmetic
import Plexus.Wire.OnePassFrame
import Plexus.Datagram.AckAgreement
import Plexus.Datagram.LateTimers
import Plexus.Datagram.PublishOrder
import Plexus.Datagram.ReassemblyAccounts
import Plexus.Datagram.HandshakeAgreement
import Plexus.Datagram.DemuxRoutes
import Plexus.Datagram.UdpHandshakeArq
import Plexus.Io.BandHandoff
import Plexus.Io.DetachLocality
import Plexus.Io.RpcMachine
import Plexus.Io.PreAuth
import Plexus.Io.SubscribeOutcome
import Plexus.Io.OversizeSend
import Plexus.Io.PeerLiveliness
import Plexus.Security.Downgrade
import Plexus.Security.HandshakeRuns
import Plexus.Crypto.StreamSync
import Plexus.Crypto.KeyUsage
import Plexus.Shm.TakeIntegrity
import Plexus.Shm.ReliableDelivery
import Plexus.Shm.RingNotifier
import Plexus.Shm.RingRegion
import Plexus.Shm.ReceiveCompanions
import Plexus.Recording.Corruption
import Plexus.Recording.RingThreads
import Plexus.Recording.RotatingSink
import Plexus.Recording.HostileStream
import Plexus.Api.Dispatch
import Plexus.Api.KnownPeers
import Plexus.Api.NodeDemand
import Plexus.Api.OneCopy
