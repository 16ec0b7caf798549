import AegisTunnel.ModeTunUdpClient

/-! # A UDP server and its clients

The server and any number of clients take their steps in any order, and whatever arrives arrives. Beside them
stand the packets that were read from each device, and the DATA frames that were built for them. -/

namespace AegisTunnel
open Octets

/-- A packet in a DATA frame, with the key of the frame. -/
structure Sealed where
  key : Block
  pkt : Octets
  wire : Octets

/-- The packet that a round of the server reads from its device. -/
def UdpEvent.packet : UdpEvent → Option Octets
  | .read true (.packet pkt) _ => if pkt.isEmpty then none else some (pkt.take frameMaxPayload)
  | _ => none

/-- The frames that the server builds for the packet, with `tun_ip` of their sessions. -/
def UdpServer.seals (b : Backend) (s : UdpServer) : UdpEvent → List (UInt32 × Sealed)
  | .read true (.packet pkt) draws =>
    if pkt.isEmpty then []
    else
      let pkt := pkt.take frameMaxPayload
      s.sessions.zipIdx.filterMap fun p =>
        if p.1.skips (ipDstAddr pkt) then none
        else (frameBuildExplicit b frameData 0 pkt (draws p.2) p.1.encKey).map fun wb => (p.1.tunIp, ⟨p.1.encKey, pkt, wb⟩)
  | _ => []

def ClientEvent.packet : ClientEvent → Option Octets
  | .read (.packet pkt) _ => if pkt.isEmpty then none else some (pkt.take frameMaxPayload)
  | _ => none

def TunUdpClient.seals (b : Backend) (s : TunUdpClient) : ClientEvent → List Sealed
  | .read (.packet pkt) draw =>
    if pkt.isEmpty then []
    else
      let pkt := pkt.take frameMaxPayload
      (frameBuildExplicit b frameData 0 pkt draw s.keys.encKey).toList.map fun wb => ⟨s.keys.encKey, pkt, wb⟩
  | _ => []

structure UdpNet (ι : Type) where
  server : UdpServer
  clients : ι → TunUdpClient
  readServer : List Octets
  readClient : ι → List Octets
  fromServer : List (UInt32 × Sealed)
  fromClient : ι → List Sealed

inductive UdpNetEvent (ι : Type) where
  | server (e : UdpEvent)
  | client (i : ι) (e : ClientEvent)

namespace UdpNet
variable {ι : Type} [DecidableEq ι]

def init : UdpNet ι := ⟨.init, fun _ => .init, [], fun _ => [], [], fun _ => []⟩

def step (lib : OpenSsl) (b : Backend) (backend : ι → Backend) (cfg : UdpConfig) (config : ι → ClientConfig) (n : UdpNet ι) :
    UdpNetEvent ι → Option (UdpNet ι)
  | .server e => (n.server.step lib b cfg e).map fun t => { n with
      server := t
      readServer := n.readServer ++ e.packet.toList
      fromServer := n.fromServer ++ n.server.seals b e }
  | .client i e => ((n.clients i).step lib (backend i) (config i) e).map fun t => { n with
      clients := Function.update n.clients i t
      readClient := Function.update n.readClient i (n.readClient i ++ e.packet.toList)
      fromClient := Function.update n.fromClient i (n.fromClient i ++ (n.clients i).seals (backend i) e) }

end UdpNet

end AegisTunnel
