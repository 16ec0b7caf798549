import AegisTunnel.ModeTunUdp
import AegisTunnel.Tunnel

/-! # The TUN server over TCP (`mode_tun_server` in `src/mode_tun.c`)

Every child shares the descriptor of the TUN device with the parent and with all other children, and runs
`tunnel_run` on it. The kernel gives a packet to one of those that read, whichever it is; the parent never
reads. Here are the children that are in `tunnel_run`, each with the TUN address of its client. -/

namespace AegisTunnel
open Octets

structure TunChild where
  addr : UInt32
  ep : Endpoint

/-- The child has not left `tunnel_run`. -/
def TunChild.connected (c : TunChild) : Bool :=
  match c.ep.pc with
  | .returned _ => false
  | _ => true

/-- A packet, the child that has read it, and the one whose client has the address it is for. -/
structure Handed where
  child : Nat
  owner : Option Nat
  packet : Octets

/-- The packets that wait at the device, the children, and what was read so far, which nothing looks at. -/
structure TunServer where
  queue : List Octets
  children : List TunChild
  handed : List Handed

inductive TunEvent where
  /-- The kernel routes a packet to the device. -/
  | packet (pkt : Octets)
  /-- The child of a client enters `tunnel_run`. -/
  | joins (addr : UInt32) (keys : SessionKeys)
  | child (i : Nat) (ev : Ev)

namespace TunServer

def init : TunServer := ⟨[], [], []⟩

/-- The connected client with the address `dst`. -/
def ownerOf (s : TunServer) (dst : UInt32) : Option Nat := s.children.findIdx? fun c => c.addr == dst && c.connected

/-- What a `read` of the child `i` takes from the device: one packet. The device is non-blocking. -/
def reads (s : TunServer) (i : Nat) : Ev → Option TunServer
  | .read (.data x xs) =>
    match s.queue with
    | [] => none
    | pkt :: rest =>
      if pkt = x :: xs then
        some { s with queue := rest, handed := s.handed ++ [⟨i, s.ownerOf (ipDstAddr pkt), pkt⟩] }
      else none
  | .read .again => if s.queue.isEmpty then some s else none
  | _ => some s

/-- One step of the server. An IP packet has at most 65535 bytes, and each connected client an address of its
    own. -/
def step (lib : OpenSsl) (b : Backend) (keepalive : Int64) (s : TunServer) : TunEvent → Option TunServer
  | .packet pkt => if pkt.length > 65535 then none else some { s with queue := s.queue ++ [pkt] }
  | .joins addr keys =>
    if addr = 0 ∨ (s.ownerOf addr).isSome then none
    else (Mode.server.start b keys keepalive).map fun e => { s with children := s.children ++ [⟨addr, e⟩] }
  | .child i ev =>
    match s.children[i]?, s.reads i ev with
    | some c, some s => (AegisTunnel.step lib b c.ep ev).map fun e => { s with children := s.children.set i ⟨c.addr, e⟩ }
    | _, _ => none

end TunServer

end AegisTunnel
