import AegisTunnel.Lib.Machine
import AegisTunnel.ModeCommon
import AegisTunnel.Tunnel

/-! # The TCP servers (`src/mode_psk.c`, `src/mode_tun.c`, `src/mode_socks5.c`)

The process that listens forks a child for each connection that it admits. A child works on its own copy
of the memory and shares nothing with the other processes, so it is a function of what it starts from. -/

namespace AegisTunnel
open Octets

inductive TcpMode where
  | psk
  | tun
  | socks5
  deriving DecidableEq

structure TcpConfig where
  mode : TcpMode
  asymPriv : Word 32
  asymPeers : List (Word 32)
  maxConns : Int
  keepalive : Int64

/-! ### The connect request -/

structure ConnectReq where
  host : Octets
  port : UInt16
  deriving DecidableEq

def parseConnectReq (p : Octets) : Option ConnectReq :=
  if p.length < 4 then none
  else
    let port := ((p.getD 0 0).toUInt16 <<< 8) ||| (p.getD 1 0).toUInt16
    let hostLen := ((p.getD 2 0).toNat <<< 8) ||| (p.getD 3 0).toNat
    if p.length < 4 + hostLen then none
    else if hostLen > 255 then none
    else some ⟨(p.drop 4).take hostLen, port⟩

/-- `recv_connect_req`: the frame that it has verified, and the request in it. -/
def recvConnectReq (b : Backend) (decKey : Block) : Hs (Octets × ConnectReq) := do
  let hdr ← recvAll frameHeaderLen
  let pLen := headerPayloadLen hdr
  if pLen < 4 ∨ pLen > 260 then Run.fail
  else
    let body ← recvAll (pLen + aegisTagLen)
    let wb := hdr ++ body
    match frameParse b wb 1 decKey with
    | .ok f =>
      match parseConnectReq f.payload with
      | some req => pure (wb, req)
      | none => Run.fail
    | _ => Run.fail

/-! ### A child -/

/-- A call of `tunnel_run`: the matched peer, the tunnel it is given, and the frames that the child has
    received and verified under the session's key before. -/
structure DataPhase where
  peer : Nat
  tunnel : Tun
  verified : List Octets

/-- What a child does up to `tunnel_run`, or none where it exits; `connects` is whether `connect_to_host`
    succeeds. -/
def tcpChild (lib : OpenSsl) (b : Backend) (cfg : TcpConfig) (connects : Bool) : Hs DataPhase := do
  let (peer, keys) ← tryHandshakeServer lib b cfg.asymPriv cfg.asymPeers
  handshakeKeyConfirmServer b keys
  match cfg.mode with
  | .psk => if connects then pure ⟨peer, Mode.server.tun keys cfg.keepalive, []⟩ else Run.fail
  | .tun => pure ⟨peer, Mode.server.tun keys cfg.keepalive, []⟩
  | .socks5 => do
    let (wb, _) ← recvConnectReq b keys.decKey
    if connects then pure ⟨peer, Mode.socksServer.tun keys cfg.keepalive, [wb]⟩ else Run.fail

/-! ### The parent -/

/-- A connection that `accept` returns: the address, `time(NULL)`, whether `fork` succeeds, and what the
    calls of its child would find. -/
structure TcpConn where
  ip : UInt32
  now : Int64
  forks : Bool
  host : World
  connects : Bool

/-- A child as it starts, with the memory of the parent at the fork. -/
structure TcpChild where
  start : World
  connects : Bool

structure TcpServer where
  listening : Bool
  replay : ReplayCache
  rate : RateTable
  activeConns : Int
  children : List TcpChild
  reaped : Nat

def TcpServer.init : TcpServer := ⟨true, replayInit, rateInit, 0, [], 0⟩

inductive TcpEvent where
  | stop
  | acceptFailed (eintr : Bool)
  | accept (conn : TcpConn)
  | sigchld

namespace TcpServer

/-- The TUN server does not limit the rate. -/
def rateCheck (cfg : TcpConfig) (conn : TcpConn) (s : TcpServer) : Bool × RateTable :=
  if cfg.mode = .tun then (true, s.rate) else handshakeRateCheck (inetNtop conn.ip) conn.now s.rate

def onAccept (cfg : TcpConfig) (conn : TcpConn) (s : TcpServer) : TcpServer :=
  if s.activeConns ≥ cfg.maxConns then s
  else
    let r := s.rateCheck cfg conn
    let s := { s with rate := r.2 }
    if !r.1 || !conn.forks then s
    else { s with
      activeConns := s.activeConns + 1
      children := s.children ++ [⟨{ conn.host with replay := s.replay }, conn.connects⟩] }

/-- A round of the accept loop, or the handler of SIGCHLD for one child that has exited; the SOCKS5
    server has set that signal to its default. -/
def step (cfg : TcpConfig) (s : TcpServer) : TcpEvent → Option TcpServer
  | .stop => if s.listening then some { s with listening := false } else none
  | .acceptFailed eintr =>
    if !s.listening then none
    else if !eintr && cfg.mode = .tun then some { s with listening := false }
    else some s
  | .accept conn => if s.listening then some (s.onAccept cfg conn) else none
  | .sigchld =>
    if s.reaped < s.children.length ∧ cfg.mode ≠ .socks5 then
      some { s with activeConns := s.activeConns - 1, reaped := s.reaped + 1 }
    else none

end TcpServer

end AegisTunnel
