import HypercoreProtocol.Lib.Method
import HypercoreProtocol.Lib.Hoare
import HypercoreProtocol.Lib.Ends
import HypercoreProtocol.Lib.Blind
import HypercoreProtocol.Lib.Vec
import HypercoreProtocol.Lib.Arena
import HypercoreProtocol.Lib.Mpmc
import HypercoreProtocol.Lib.Trace
import HypercoreProtocol.Lib.Link
import HypercoreProtocol.Lib.Codec
import HypercoreProtocol.Lib.Decoder
import HypercoreProtocol.Lib.NoPanic
import HypercoreProtocol.Lib.PrefixCode
import HypercoreProtocol.Deps
import HypercoreProtocol.Schema
import HypercoreProtocol.SchemaSpec
import HypercoreProtocol.Message
import HypercoreProtocol.MessageSpec
import HypercoreProtocol.FrameSpec
import HypercoreProtocol.Sizes
import HypercoreProtocol.Normalizing
import HypercoreProtocol.CompactEncoding
import HypercoreProtocol.Handshake
import HypercoreProtocol.Channels
import HypercoreProtocol.ChannelMapSpec
import HypercoreProtocol.ChannelMapRuns
import HypercoreProtocol.Mqueue
import HypercoreProtocol.Sink
import HypercoreProtocol.Implemented
import HypercoreProtocol.Memory
import HypercoreProtocol.Protocol
import HypercoreProtocol.Writing
import HypercoreProtocol.ProtocolSpec
import HypercoreProtocol.Session
import HypercoreProtocol.SessionSpec
import HypercoreProtocol.Establishment
import HypercoreProtocol.Announcements
import HypercoreProtocol.Traffic
import HypercoreProtocol.Outgoing
import HypercoreProtocol.Outbound
import HypercoreProtocol.Polling
import HypercoreProtocol.Reopen
import HypercoreProtocol.Failures
import HypercoreProtocol.Closing
import HypercoreProtocol.Routing
import HypercoreProtocol.Polled
import HypercoreProtocol.Acceptance
import HypercoreProtocol.Reading
import HypercoreProtocol.Capabilities
import HypercoreProtocol.FirstEvent
import HypercoreProtocol.Decoding
import HypercoreProtocol.Boundaries
import HypercoreProtocol.Buffers
import HypercoreProtocol.Peers
import HypercoreProtocol.Flow
import HypercoreProtocol.Delivery
import HypercoreProtocol.Isolation
import HypercoreProtocol.Calls
import HypercoreProtocol.Observed
import HypercoreProtocol.Accounts
import HypercoreProtocol.Queues
import HypercoreProtocol.Returning
import HypercoreProtocol.Settling
import HypercoreProtocol.Heard
import HypercoreProtocol.Written
import HypercoreProtocol.Crossing
import HypercoreProtocol.Signals
import HypercoreProtocol.Lifetimes
import HypercoreProtocol.Convergence
import HypercoreProtocol.Flooding
