import AegisTunnel.StartUp

/-! # The dispatch of `main` (`main.c`) and the hosts that the clients ask for

The modes that `main` can call, with the host and the port that they are given, and what the four clients
(`mode_psk.c`, `mode_tun.c`, `mode_tun_udp.c`, `mode_socks5.c`) then pass to `getaddrinfo`. -/

namespace AegisTunnel

/-- The variables of `main` at its dispatch, with `g_peer_endpoints` and `g_peer_count`. -/
structure MainVars where
  socks5Force : Nat
  tunMode : Bool
  tunUdp : Bool
  mode : List Char
  remoteStr : Option (List Char)
  peerEndpoints : List (List Char)
  peerCount : Nat

/-- The mode that is called. Of the arguments of the servers, none is a host to ask for at the start. -/
inductive Dispatch where
  | socks5Server
  | socks5Client (remoteHost : List Char) (remotePort : Int)
  | tunUdpServer
  | tunUdpClient (remoteHost : List Char) (remotePort : Int)
  | tunServer
  | tunClient (remoteHost : List Char) (remotePort : Int)
  | pskServer
  | pskClient (remoteHost : List Char) (remotePort : Int)
  deriving DecidableEq

def Dispatch.isClient : Dispatch → Bool
  | .socks5Client .. | .tunUdpClient .. | .tunClient .. | .pskClient .. => true
  | _ => false

def maxHostLen : Nat := 256

/-- `remote_host` and `remote_port`; none where `main` ends with an error. -/
def remoteOf : Option (List Char) → Option (List Char × Int)
  | none => some ([], 0)
  | some r => (parseHostPort r).map fun remote => (remote.1.take (maxHostLen - 1), remote.2)

def dispatch (v : MainVars) : Option Dispatch :=
  (remoteOf v.remoteStr).map fun remote =>
    if v.socks5Force ≠ 0 then
      if v.socks5Force = 1 then .socks5Server
      else .socks5Client (v.remoteStr.getD "127.0.0.1".toList) (if remote.2 ≠ 0 then remote.2 else 9000)
    else if v.tunMode ∧ v.tunUdp then
      if v.mode = "server".toList then .tunUdpServer else .tunUdpClient remote.1 remote.2
    else if v.tunMode then
      if v.mode = "server".toList then .tunServer else .tunClient remote.1 remote.2
    else if v.mode = "server".toList then .pskServer
    else .pskClient remote.1 remote.2

/-! ### The loop of `mode_tun_client` -/

/-- The host and the port in an endpoint of the configuration, with the port 9000 if it has none. -/
def endpointHost (endpoint : List Char) : Option (List Char × Int) :=
  let epBuf := snprintf 320 endpoint
  parseHostPort (if ':' ∈ epBuf then epBuf else epBuf ++ snprintf (320 - epBuf.length) ":9000".toList)

def MainVars.endpoint (v : MainVars) (peerIdx : Nat) : List Char := v.peerEndpoints.getD peerIdx []

/-- The host and the port of a round; none where it goes on to the next peer at once. -/
def tunHost (v : MainVars) (remoteHost : List Char) (remotePort : Int) (peerIdx : Nat) : Option (List Char × Int) :=
  if remoteHost ≠ [] then some (remoteHost, remotePort)
  else if v.endpoint peerIdx ≠ [] then endpointHost (v.endpoint peerIdx)
  else some (remoteHost, remotePort)

/-- The local variable `peer_count`. -/
def tunPeerCount (v : MainVars) (remoteHost : List Char) : Nat :=
  if remoteHost = [] ∧ 0 < v.peerCount then v.peerCount else 1

/-- The values that `peer_idx` can have in a round. -/
inductive PeerIdx (peerCount : Nat) : Nat → Prop where
  | start : PeerIdx peerCount 0
  | next {peerIdx : Nat} (h : PeerIdx peerCount peerIdx) : PeerIdx peerCount ((peerIdx + 1) % peerCount)

/-- A client can pass the host and the port to `getaddrinfo`. -/
inductive Asks (v : MainVars) : Dispatch → List Char × Int → Prop where
  | socks5 (host : List Char) (port : Int) : Asks v (.socks5Client host port) (host, port)
  | tunUdp (host : List Char) (port : Int) : Asks v (.tunUdpClient host port) (host, port)
  | tun {host : List Char} {port : Int} {peerIdx : Nat} {asked : List Char × Int}
      (round : PeerIdx (tunPeerCount v host) peerIdx) (peer : tunHost v host port peerIdx = some asked) :
      Asks v (.tunClient host port) asked
  | psk (host : List Char) (port : Int) : Asks v (.pskClient host port) (host, port)

end AegisTunnel
