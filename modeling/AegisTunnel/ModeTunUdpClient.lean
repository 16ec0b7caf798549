import AegisTunnel.ModeTunUdp

/-! # The UDP client (`mode_tun_udp_client` in `src/mode_tun_udp.c`)

A step is an attempt to connect, or one round of one of the loops of a session: the main loop, the two
loops that drain the device and the socket, and the keepalive at the end of a round. -/

namespace AegisTunnel
open Octets

structure ClientConfig where
  asymPriv : Word 32
  /-- `g_asym_peers[0]` -/
  peer : Word 32
  keepalive : Int32

/-- Where the client is; `udpIn` is whether `poll` has reported the socket readable. -/
inductive ClientPc where
  | connect
  | poll
  | tun (udpIn : Bool)
  | udp
  | keepalive
  | returned
  deriving DecidableEq

/-- The state of the client, and what it has done: the datagrams sent and the writes to the device. -/
structure TunUdpClient where
  pc : ClientPc
  keys : SessionKeys
  lastKa : Int64
  sent : List Octets
  wrote : List Octets

def TunUdpClient.init : TunUdpClient := ⟨.connect, ⟨Word.zero 16, Word.zero 16⟩, 0, [], []⟩

/-- `recv` on the connected socket; an interrupted call is an error here. -/
inductive ClientRecv where
  | again
  | error
  | dgram (d : Octets)

inductive ClientEvent where
  /-- With `reached`, the socket, the name and `connect` work out; `peer` is what the handshake finds. -/
  | connect (running reached : Bool) (peer : UdpClient) (now : Int64)
  | round (running : Bool) (answer : UdpPoll)
  | read (answer : TunRead) (draw : Option (Word 8))
  | recv (answer : ClientRecv) (writes : List Sent)
  | keepalive (now : Int64) (draw : Option (Word 8))

namespace TunUdpClient

/-- `disconnect`: the keys are zeroed, and the client connects again. -/
def disconnect (s : TunUdpClient) : TunUdpClient := { s with pc := .connect, keys := ⟨Word.zero 16, Word.zero 16⟩ }

/-- The end of the loop that drains the device. -/
def drained (udpIn : Bool) (s : TunUdpClient) : TunUdpClient := { s with pc := if udpIn then .udp else .keepalive }

section
variable (lib : OpenSsl) (b : Backend) (cfg : ClientConfig)

def onPacket (pkt : Octets) (draw : Option (Word 8)) (s : TunUdpClient) : TunUdpClient :=
  { s with sent := s.sent ++ (frameBuildExplicit b frameData 0 (pkt.take frameMaxPayload) draw s.keys.encKey).toList }

/-- A datagram from the server. All the writes of its packet are in the loop that begins again after an
    interrupted one. -/
def onDatagram (d : Octets) (writes : List Sent) (s : TunUdpClient) : TunUdpClient :=
  match frameParseExplicit b (d.take udpMaxDgram) s.keys.decKey with
  | .ok f => { s with
      wrote := s.wrote ++ if f.type = frameData ∧ f.payload ≠ [] then tunWriteRest f.payload writes else [] }
  | _ => s

def onKeepalive (now : Int64) (draw : Option (Word 8)) (s : TunUdpClient) : TunUdpClient :=
  let s := { s with pc := .poll }
  if cfg.keepalive > 0 && now - s.lastKa ≥ cfg.keepalive.toInt64 then { s with
    sent := s.sent ++ (frameBuildExplicit b frameKeepalive 0 [] draw s.keys.encKey).toList
    lastKa := now }
  else s

def step (s : TunUdpClient) : ClientEvent → Option TunUdpClient
  | .connect running reached peer now =>
    match s.pc with
    | .connect =>
      if !running then some { s with pc := .returned }
      else if !reached then some s
      else match (udpHandshakeClient lib b cfg.asymPriv cfg.peer peer).1 with
        | none => some s
        | some keys => some { s with pc := .poll, keys := keys, lastKa := now }
    | _ => none
  | .round running answer =>
    match s.pc with
    | .poll =>
      if !running then some s.disconnect
      else match answer with
        | .eintr => some s
        | .error => some s.disconnect
        | .ready udpIn tunIn => if tunIn then some { s with pc := .tun udpIn } else some (s.drained udpIn)
    | _ => none
  | .read answer draw =>
    match s.pc with
    | .tun udpIn =>
      match answer with
      | .again => some (s.drained udpIn)
      | .error => some s.disconnect
      | .packet pkt => if pkt.isEmpty then some s.disconnect else some (s.onPacket b pkt draw)
    | _ => none
  | .recv answer writes =>
    match s.pc with
    | .udp =>
      match answer with
      | .again => some { s with pc := .keepalive }
      | .error => some s.disconnect
      | .dgram d => if d.isEmpty then some s.disconnect else some (s.onDatagram b d writes)
    | _ => none
  | .keepalive now draw =>
    match s.pc with
    | .keepalive => some (s.onKeepalive b cfg now draw)
    | _ => none

end

end TunUdpClient

end AegisTunnel
