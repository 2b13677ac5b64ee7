import UvCpp.Cpp.Exec
import UvCpp.Cpp.Strings
import UvCpp.Cpp.Numerals
import UvCpp.Systems.Run
import UvCpp.Systems.Mailbox
import UvCpp.Systems.Blocks
import UvCpp.Systems.Duplex
import UvCpp.Systems.Framing
import UvCpp.Systems.Prefixes
import UvCpp.Systems.Ring
import UvCpp.Systems.Walk
import UvCpp.Buffer.PacketBuffer
import UvCpp.Buffer.ListBuffer
import UvCpp.Buffer.CycleBuffer
import UvCpp.Buffer.Queue
import UvCpp.Packet.Number
import UvCpp.Packet.Packet
import UvCpp.Packet.Stream
import UvCpp.Packet.Progress
import UvCpp.Packet.Resync
import UvCpp.Packet.PingPang
import UvCpp.Loop.Async
import UvCpp.Loop.EventLoop
import UvCpp.Loop.TimerWheel
import UvCpp.Loop.Timer
import UvCpp.Tcp.TcpConnection
import UvCpp.Tcp.TcpServer
import UvCpp.Tcp.Registry
import UvCpp.Tcp.CloseNotice
import UvCpp.Tcp.Connected
import UvCpp.Tcp.ServerClose
import UvCpp.Tcp.TcpAccepter
import UvCpp.Tcp.SocketAddr
import UvCpp.Tcp.Heartbeat
import UvCpp.Tcp.Writes
import UvCpp.Tcp.WriteBuffers
import UvCpp.Tcp.CrossThread
import UvCpp.Tcp.TcpClient
import UvCpp.Tcp.ClientHandles
import UvCpp.Tcp.Reconnect
import UvCpp.Tcp.HeartbeatTime
import UvCpp.Http.HttpCommon
import UvCpp.Http.RadixTree
import UvCpp.Http.Routing
import UvCpp.Http.Wildcards
import UvCpp.Http.TreeShape
import UvCpp.Http.Placeholders
import UvCpp.Http.Message
import UvCpp.Http.Request
import UvCpp.Http.Response
import UvCpp.Http.Heads
import UvCpp.Http.Splitting
import UvCpp.Http.Reparse
import UvCpp.Http.Query
import UvCpp.Http.Reencode
import UvCpp.Http.Completed
import UvCpp.Http.HttpServer
import UvCpp.Http.Arrivals
import UvCpp.Http.Lookup
import UvCpp.Http.Chunked
import UvCpp.Http.ChunkRounds
import UvCpp.Http.ChunkCuts
import UvCpp.Http.HeaderCase
import UvCpp.Http.HttpClient
import UvCpp.Http.ReceiveBuffer
import UvCpp.Http.ChunkedTransfer
import UvCpp.Http.Exchange
import UvCpp.Rpc.Protocol
import UvCpp.Rpc.RpcCtrl
import UvCpp.Udp.Udp
import UvCpp.Udp.Network
