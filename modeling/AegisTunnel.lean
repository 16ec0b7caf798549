import AegisTunnel.Crypto.Aegis
import AegisTunnel.Theorems.Aegis
import AegisTunnel.Crypto.Accel
import AegisTunnel.Theorems.Accel
import AegisTunnel.Crypto.Reference
import AegisTunnel.Theorems.Conformance
import AegisTunnel.Frame
import AegisTunnel.Theorems.Frame
import AegisTunnel.Crypto.Streaming
import AegisTunnel.Theorems.Absorbed
import AegisTunnel.Theorems.Streaming
import AegisTunnel.Crypto.Buffers
import AegisTunnel.Theorems.InPlace
import AegisTunnel.Crypto.Neon
import AegisTunnel.Theorems.Neon
import AegisTunnel.FrameReader
import AegisTunnel.Lib.Framing
import AegisTunnel.Theorems.Wipe
import AegisTunnel.Theorems.FrameReader
import AegisTunnel.ReaderBuffer
import AegisTunnel.Theorems.ReaderBuffer
import AegisTunnel.Handshake
import AegisTunnel.Theorems.Handshake
import AegisTunnel.ModeCommon
import AegisTunnel.Theorems.ModeCommon
import AegisTunnel.Rekey
import AegisTunnel.Tunnel
import AegisTunnel.Lib.Machine
import AegisTunnel.Theorems.Tunnel
import AegisTunnel.Theorems.Rekey
import AegisTunnel.Theorems.Nonce
import AegisTunnel.Theorems.Agreement
import AegisTunnel.Lib.Sequence
import AegisTunnel.Network
import AegisTunnel.Proxy
import AegisTunnel.Theorems.Integrity
import AegisTunnel.Theorems.Sending
import AegisTunnel.Theorems.Pressure
import AegisTunnel.Theorems.WholeFrames
import AegisTunnel.Theorems.Proxy
import AegisTunnel.Session
import AegisTunnel.Theorems.EndOfStream
import AegisTunnel.Theorems.Sync
import AegisTunnel.Theorems.Delivery
import AegisTunnel.Theorems.Connection
import AegisTunnel.Lib.Slots
import AegisTunnel.UdpHandshake
import AegisTunnel.ModeTunUdp
import AegisTunnel.Theorems.UdpHandshake
import AegisTunnel.Lib.SlotRing
import AegisTunnel.Theorems.Timestamps
import AegisTunnel.Theorems.WireFormat
import AegisTunnel.Theorems.ModeTunUdp
import AegisTunnel.Theorems.UdpSessions
import AegisTunnel.Theorems.UdpWaiting
import AegisTunnel.Theorems.FailedExchange
import AegisTunnel.SessionTable
import AegisTunnel.Theorems.SessionTable
import AegisTunnel.Theorems.Expiry
import AegisTunnel.Lib.Datagrams
import AegisTunnel.ModeTunUdpClient
import AegisTunnel.Theorems.Replay
import AegisTunnel.Theorems.UdpNetwork
import AegisTunnel.PeerTable
import AegisTunnel.IniConfig
import AegisTunnel.Theorems.IniConfig
import AegisTunnel.Lib.Tokens
import AegisTunnel.Routes
import AegisTunnel.Theorems.Routes
import AegisTunnel.StartUp
import AegisTunnel.Theorems.StartUp
import AegisTunnel.Theorems.KeyFile
import AegisTunnel.ClientModes
import AegisTunnel.Theorems.ClientModes
import AegisTunnel.Lib.Lines
import AegisTunnel.ConfigMgmt
import AegisTunnel.Theorems.ConfigMgmt
import AegisTunnel.ConfigCommands
import AegisTunnel.Theorems.ConfigText
import AegisTunnel.Theorems.CreateTun
import AegisTunnel.Theorems.PeerCommands
import AegisTunnel.Theorems.Workflow
import AegisTunnel.TcpServer
import AegisTunnel.Lib.Handles
import AegisTunnel.Lib.Journal
import AegisTunnel.Sockets
import AegisTunnel.Theorems.Sockets
import AegisTunnel.Reconnect
import AegisTunnel.Theorems.Reconnect
import AegisTunnel.ModeTun
import AegisTunnel.Theorems.ModeTun
import AegisTunnel.Theorems.Routing
import AegisTunnel.TunAddress
import AegisTunnel.Theorems.TunAddress
import AegisTunnel.Theorems.TcpServer
import AegisTunnel.Socks5
import AegisTunnel.Theorems.Socks5
import AegisTunnel.Theorems.SocksAccept
import AegisTunnel.Lib.Spans
import AegisTunnel.Theorems.RateLimit
import AegisTunnel.Lib.Chain
import AegisTunnel.ThreadPool
import AegisTunnel.Theorems.ThreadPool
import AegisTunnel.Theorems.PoolSignals
import AegisTunnel.Accounting
import AegisTunnel.Theorems.Accounting
import AegisTunnel.Lib.Deduction
import AegisTunnel.Theorems.Secrecy
import AegisTunnel.Theorems.Compromise
