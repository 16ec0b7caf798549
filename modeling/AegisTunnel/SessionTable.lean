import AegisTunnel.ModeTunUdp

/-! # The session table of the UDP server as an array

`mode_tun_udp_server` keeps the sessions in an array of `UDP_MAX_CLIENTS` and a count, and its loops go over
the slots below the count. The server of `ModeTunUdp` has these slots only; here is the whole array. -/

namespace AegisTunnel
open Octets

/-- `sessions` and `session_count`. -/
structure SessionTable where
  sessions : List UdpSession
  count : Nat
  size : sessions.length = udpMaxClients

namespace SessionTable

/-- After the `memset`. -/
def init : SessionTable := ⟨List.replicate udpMaxClients .zeroed, 0, rfl⟩

def get (t : SessionTable) (si : Nat) : UdpSession := t.sessions.getD si .zeroed

/-- A write to the slot `si`. -/
def modify (si : Nat) (f : UdpSession → UdpSession) (t : SessionTable) : SessionTable :=
  ⟨t.sessions.modify si f, t.count, by rw [List.length_modify, t.size]⟩

/-- `session_find`: the loop over the slots below the count, up to the first hit. -/
def find (t : SessionTable) (addr : SockAddr) : Option Nat :=
  (List.range t.count).find? fun i => (t.get i).active && (t.get i).addr.ip == addr.ip

/-- A loop that passes over the slots below the count and rewrites each. -/
def each (f : UdpSession → UdpSession) (t : SessionTable) : SessionTable :=
  (List.range t.count).foldl (fun t si => t.modify si f) t

/-- The install of a completed handshake. -/
def install (cfg : UdpConfig) (offer : UdpOffer) (sender : SockAddr) (now : Int64) (t : SessionTable) : SessionTable :=
  let write := fun x : UdpSession => { x with
    addr := sender, encKey := offer.keys.encKey, decKey := offer.keys.decKey, lastSeen := now, active := true }
  match t.find sender with
  | some si => t.modify si write
  | none =>
    if t.count < udpMaxClients then
      let si := t.count
      let t := { t with count := t.count + 1 }
      (t.modify si fun x => { x with tunIp := cfg.tunIpOf offer.peer }).modify si write
    else t

/-- The data branch: the port, and then the time if the frame is accepted. -/
def onData (b : Backend) (buf : Octets) (sender : SockAddr) (now : Int64) (t : SessionTable) : SessionTable :=
  match t.find sender with
  | none => t
  | some si =>
    let t := t.modify si fun x => { x with addr.port := sender.port }
    match frameParseExplicit b buf (t.get si).decKey with
    | .ok _ => t.modify si fun x => { x with lastSeen := now }
    | _ => t

/-- A datagram: a handshake writes nothing before it is confirmed. -/
def onDatagram (b : Backend) (d : Octets) (sender : SockAddr) (now : Int64) (t : SessionTable) : SessionTable :=
  let buf := d.take udpMaxDgram
  if udpHsDgram ≤ buf.length ∧ buf.getD 0 0 = frameHandshake then t else t.onData b buf sender now

/-- The keepalive and the expiry of the sessions. -/
def cleanup (keepalive : Int32) (now : Int64) (t : SessionTable) : SessionTable := t.each (·.cleanup keepalive now)

/-- The end of the function. -/
def leave (t : SessionTable) : SessionTable := t.each fun _ => .zeroed

/-- The slots below the count. -/
def used (t : SessionTable) : List UdpSession := t.sessions.take t.count

end SessionTable

/-! ### The server with the array -/

/-- The state of the server, as `UdpServer` has it but for the table. -/
structure ArrayServer where
  table : SessionTable
  rate : RateTable
  pc : UdpPc
  received : List (SockAddr × Octets)
  sent : List Sending
  wrote : List Octets
  installs : List (Nat × UdpOffer)

namespace ArrayServer

def init : ArrayServer := ⟨.init, rateInit, .poll, [], [], [], []⟩

/-- The server that has the slots below the count. -/
def view (a : ArrayServer) : UdpServer := ⟨a.table.used, a.rate, a.pc, a.received, a.sent, a.wrote, a.installs⟩

section
variable (lib : OpenSsl) (b : Backend) (cfg : UdpConfig)

/-- What a round that ends in `s` does to the array. The branches are those of `UdpServer.step`: the table
    is written by a datagram, by a confirmation, by the clean-up and at the end. -/
def tableAfter (a : ArrayServer) (e : UdpEvent) (s : UdpServer) : SessionTable :=
  match a.pc, e with
  | .udp _, .recv true (.dgram d sender) now _ _ => a.table.onDatagram b d sender now
  | .confirm offer _, .await true (.dgram d sender now) =>
    if udpConfirmed b offer.keys.decKey d then a.table.install cfg offer sender now else a.table
  | .cleanup, .cleanup now _ => a.table.cleanup cfg.keepalive now
  | _, _ => if s.pc = .returned then a.table.leave else a.table

/-- One round of the loop that the server is in. -/
def step (a : ArrayServer) (e : UdpEvent) : Option ArrayServer :=
  (a.view.step lib b cfg e).map fun s => ⟨a.tableAfter b cfg e s, s.rate, s.pc, s.received, s.sent, s.wrote, s.installs⟩

end

end ArrayServer

end AegisTunnel
