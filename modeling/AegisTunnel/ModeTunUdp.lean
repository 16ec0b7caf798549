import AegisTunnel.Lib.Machine
import AegisTunnel.Lib.Slots
import AegisTunnel.ModeCommon
import AegisTunnel.UdpHandshake

/-! # The UDP server (`mode_tun_udp_server` in `src/mode_tun_udp.c`)

One process with one socket and one TUN device. A step is one round of one of its loops: the main loop,
the two loops that drain the socket and the device, and the loop that waits for a client's confirmation
inside the first of these. Each step is given what its calls answer. -/

namespace AegisTunnel
open Octets

def udpMaxDgram : Nat := 65535
def udpMaxClients : Nat := 64

/-- `struct sockaddr_in`, in host byte order. -/
structure SockAddr where
  ip : UInt32
  port : UInt16
  deriving DecidableEq

structure UdpSession where
  addr : SockAddr
  encKey : Block
  decKey : Block
  tunIp : UInt32
  lastSeen : Int64
  active : Bool
  deriving DecidableEq

/-- A slot after `secure_memzero`. -/
def UdpSession.zeroed : UdpSession := ⟨⟨0, 0⟩, Word.zero 16, Word.zero 16, 0, 0, false⟩

/-- An entry of `g_asym_peers` and of `g_peer_tun_ips`. -/
structure PeerEntry where
  pub : Word 32
  tunIp : UInt32

structure UdpConfig where
  asymPriv : Word 32
  peers : List PeerEntry
  keepalive : Int32

/-- `g_peer_tun_ips` at an index. -/
def UdpConfig.tunIpOf (cfg : UdpConfig) (pi : Nat) : UInt32 := (cfg.peers[pi]?.map (·.tunIp)).getD 0

/-! ### The session table -/

/-- `session_find`; the port is ignored. -/
def sessionFind (sessions : List UdpSession) (addr : SockAddr) : Option Nat :=
  Slots.find (·.active) (·.addr.ip) sessions addr.ip

/-- The install of a completed handshake. A slot in use keeps its `tun_ip`. -/
def sessionInstall (cfg : UdpConfig) (offer : UdpOffer) (sender : SockAddr) (now : Int64) (sessions : List UdpSession) :
    List UdpSession :=
  Slots.put (·.active) (·.addr.ip) udpMaxClients sender.ip
    { addr := sender, encKey := offer.keys.encKey, decKey := offer.keys.decKey, tunIp := cfg.tunIpOf offer.peer
      lastSeen := now, active := true }
    (fun x => { x with
      addr := sender, encKey := offer.keys.encKey, decKey := offer.keys.decKey, lastSeen := now, active := true })
    sessions

/-- The slot that `sessionInstall` writes. -/
def sessionSlot (sessions : List UdpSession) (sender : SockAddr) : Option Nat :=
  Slots.slot (·.active) (·.addr.ip) udpMaxClients sender.ip sessions

/-- The keepalive and the expiry of one session in the clean-up. -/
def UdpSession.cleanup (keepalive : Int32) (now : Int64) (x : UdpSession) : UdpSession :=
  if !x.active then x
  else
    let x := if keepalive > 0 && now - x.lastSeen ≥ keepalive.toInt64 then { x with lastSeen := now } else x
    if now - x.lastSeen > 300 then .zeroed else x

/-! ### Packets -/

/-- `ip_dst_addr`. -/
def ipDstAddr (pkt : Octets) : UInt32 :=
  if pkt.length < 20 then 0
  else if (pkt.getD 0 0) >>> 4 ≠ 4 then 0
  else
    let ihl := ((pkt.getD 0 0) &&& 0x0f).toNat * 4
    if ihl < 20 ∨ ihl > pkt.length then 0
    else ((pkt.drop 16).take 4).foldl (fun (a : UInt32) (x : UInt8) => (a <<< 8) ||| x.toUInt32) 0

/-- A datagram handed to `sendto`; a frame of a session has its slot. -/
structure Sending where
  slot : Option Nat
  addr : SockAddr
  wire : Octets
  deriving DecidableEq

/-- Whether the loop over the sessions passes over this one for a packet to `dst`. -/
def UdpSession.skips (x : UdpSession) (dst : UInt32) : Bool :=
  !x.active || (dst != 0 && x.tunIp != 0 && dst != x.tunIp)

/-- The frames for the sessions, where `draws` is what `random_bytes` delivers for each of them. -/
def sendEach (b : Backend) (type : UInt8) (d : Octets) (draws : Nat → Option (Word 8)) (skip : UdpSession → Bool)
    (sessions : List UdpSession) : List Sending :=
  sessions.zipIdx.filterMap fun p =>
    if skip p.1 then none
    else (frameBuildExplicit b type 0 d (draws p.2) p.1.encKey).map fun wb => ⟨some p.2, p.1.addr, wb⟩

/-- The writes to the device after a first short one. -/
def tunWriteRest : Octets → List Sent → List Octets
  | pending, [] => if pending.isEmpty then [] else [pending]
  | pending, k :: ks =>
    if pending.isEmpty then []
    else match k with
      | .took n => pending.take n :: tunWriteRest (pending.drop n) ks
      | .eintr | .again => tunWriteRest pending ks
      | .error => []

/-- What `write` takes of a packet, call by call. A first call that fails drops the packet. -/
def tunWrite (pkt : Octets) : List Sent → List Octets
  | [] => [pkt]
  | .took n :: ks => pkt.take n :: tunWriteRest (pkt.drop n) ks
  | _ :: _ => []

/-! ### The loops -/

/-- Where the server is; `tunIn` is whether `poll` has reported the device readable. -/
inductive UdpPc where
  | poll
  | udp (tunIn : Bool)
  | confirm (offer : UdpOffer) (tunIn : Bool)
  | tun
  | cleanup
  | returned
  deriving DecidableEq

/-- The state of the server, and what it has done: the datagrams received, those sent, the writes to the
    device, and the handshakes installed, with their slots and the last one first. -/
structure UdpServer where
  sessions : List UdpSession
  rate : RateTable
  pc : UdpPc
  received : List (SockAddr × Octets)
  sent : List Sending
  wrote : List Octets
  installs : List (Nat × UdpOffer)

def UdpServer.init : UdpServer := ⟨[], rateInit, .poll, [], [], [], []⟩

/-- The handshake whose keys were last installed in a slot. -/
def UdpServer.owner (s : UdpServer) (si : Nat) : Option UdpOffer := (s.installs.find? (·.1 == si)).map (·.2)

inductive UdpPoll where
  | eintr
  | error
  | ready (udpIn tunIn : Bool)

inductive RecvFrom where
  | again
  | error
  | dgram (d : Octets) (sender : SockAddr)

/-- `poll` and `recvfrom` of the wait for the confirmation. -/
inductive AwaitFrom where
  | pollEintr
  | pollError
  | timeout
  | error
  | dgram (d : Octets) (sender : SockAddr) (now : Int64)

/-- `read` of the device; no bytes are its end. -/
inductive TunRead where
  | again
  | error
  | packet (pkt : Octets)

/-- One round of a loop: `g_running` as it finds it, and what its calls answer. -/
inductive UdpEvent where
  | round (running : Bool) (answer : UdpPoll)
  | recv (running : Bool) (answer : RecvFrom) (now : Int64) (host : World) (writes : List Sent)
  | await (running : Bool) (answer : AwaitFrom)
  | read (running : Bool) (answer : TunRead) (draws : Nat → Option (Word 8))
  | cleanup (now : Int64) (draws : Nat → Option (Word 8))

namespace UdpServer

/-- The end of the function: the sessions in use are zeroed. -/
def leave (s : UdpServer) : UdpServer :=
  { s with pc := .returned, sessions := s.sessions.map fun _ => .zeroed }

/-- The end of the loop that drains the socket. -/
def drained (tunIn : Bool) (s : UdpServer) : UdpServer := { s with pc := if tunIn then .tun else .cleanup }

section
variable (lib : OpenSsl) (b : Backend) (cfg : UdpConfig)

/-- A handshake datagram, up to the wait for the confirmation. -/
def onHandshake (tunIn : Bool) (buf : Octets) (sender : SockAddr) (now : Int64) (host : World) (s : UdpServer) :
    UdpServer :=
  let r := handshakeRateCheck (inetNtop sender.ip) now s.rate
  let s := { s with rate := r.2 }
  if r.1 then
    match (udpTryPeers lib b cfg.asymPriv (buf.take udpHsDgram) 0 (cfg.peers.map (·.pub)) host).1 with
    | none => s
    | some offer => { s with
        pc := .confirm offer tunIn
        sent := s.sent ++ [⟨none, sender, offer.resp⟩, ⟨none, sender, offer.confirm⟩] }
  else s

/-- A datagram for the session of its sender. The port is updated before the frame is decrypted. -/
def onData (buf : Octets) (sender : SockAddr) (now : Int64) (writes : List Sent) (s : UdpServer) : UdpServer :=
  match sessionFind s.sessions sender with
  | none => s
  | some si =>
    match s.sessions[si]? with
    | none => s
    | some x =>
      let x := { x with addr.port := sender.port }
      match frameParseExplicit b buf x.decKey with
      | .ok f => { s with
          sessions := s.sessions.set si { x with lastSeen := now }
          wrote := s.wrote ++ if f.type = frameData ∧ f.payload ≠ [] then tunWrite f.payload writes else [] }
      | _ => { s with sessions := s.sessions.set si x }

def onDatagram (tunIn : Bool) (d : Octets) (sender : SockAddr) (now : Int64) (host : World) (writes : List Sent)
    (s : UdpServer) : UdpServer :=
  let buf := d.take udpMaxDgram
  let s := { s with received := s.received ++ [(sender, d)] }
  if udpHsDgram ≤ buf.length ∧ buf.getD 0 0 = frameHandshake then onHandshake lib b cfg tunIn buf sender now host s
  else onData b buf sender now writes s

/-- The datagram that ends the wait for a confirmation. -/
def onConfirm (offer : UdpOffer) (tunIn : Bool) (d : Octets) (sender : SockAddr) (now : Int64) (s : UdpServer) :
    UdpServer :=
  let s := { s with pc := .udp tunIn, received := s.received ++ [(sender, d)] }
  if udpConfirmed b offer.keys.decKey d then { s with
    sessions := sessionInstall cfg offer sender now s.sessions
    installs := ((sessionSlot s.sessions sender).map (·, offer)).toList ++ s.installs }
  else s

def onPacket (pkt : Octets) (draws : Nat → Option (Word 8)) (s : UdpServer) : UdpServer :=
  let pkt := pkt.take frameMaxPayload
  let dst := ipDstAddr pkt
  { s with sent := s.sent ++ sendEach b frameData pkt draws (·.skips dst) s.sessions }

def onCleanup (now : Int64) (draws : Nat → Option (Word 8)) (s : UdpServer) : UdpServer :=
  let idle := fun x : UdpSession => cfg.keepalive > 0 && now - x.lastSeen ≥ cfg.keepalive.toInt64
  { s with
    pc := .poll
    sent := s.sent ++ sendEach b frameKeepalive [] draws (fun x => !(x.active && idle x)) s.sessions
    sessions := s.sessions.map (·.cleanup cfg.keepalive now) }

/-- One round of the loop that the server is in. -/
def step (s : UdpServer) : UdpEvent → Option UdpServer
  | .round running answer =>
    match s.pc with
    | .poll =>
      if !running then some s.leave
      else match answer with
        | .eintr => some s
        | .error => some s.leave
        | .ready udpIn tunIn => if udpIn then some { s with pc := .udp tunIn } else some (s.drained tunIn)
    | _ => none
  | .recv running answer now host writes =>
    match s.pc with
    | .udp tunIn =>
      if !running then some (s.drained tunIn)
      else match answer with
        | .again => some (s.drained tunIn)
        | .error => some s
        | .dgram d sender => some (s.onDatagram lib b cfg tunIn d sender now host writes)
    | _ => none
  | .await running answer =>
    match s.pc with
    | .confirm offer tunIn =>
      if !running then some { s with pc := .udp tunIn }
      else match answer with
        | .pollEintr | .timeout => some s
        | .pollError | .error => some { s with pc := .udp tunIn }
        | .dgram d sender now => some (s.onConfirm b cfg offer tunIn d sender now)
    | _ => none
  | .read running answer draws =>
    match s.pc with
    | .tun =>
      if !running then some { s with pc := .cleanup }
      else match answer with
        | .again => some { s with pc := .cleanup }
        | .error => some s.leave
        | .packet pkt => if pkt.isEmpty then some s.leave else some (s.onPacket b pkt draws)
    | _ => none
  | .cleanup now draws =>
    match s.pc with
    | .cleanup => some (s.onCleanup b cfg now draws)
    | _ => none

end

end UdpServer

end AegisTunnel
