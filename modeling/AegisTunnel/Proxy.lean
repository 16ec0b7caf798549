import AegisTunnel.Network

/-! # A tunnel between two stream sockets (`src/mode_psk.c`, `src/mode_socks5.c`)

In the proxy and SOCKS5 modes both descriptors of `tunnel_run` are stream sockets as `accept` and
`connect_to_host` return them. Nothing makes them non-blocking: a `read` that finds neither bytes nor the end
of its stream waits, and never answers `EAGAIN`. -/

namespace AegisTunnel
open Octets

/-- The peer has shut its side down, or has reset the connection. -/
inductive Ending where
  | eof
  | reset
  deriving DecidableEq

/-- The receiving side of a stream socket: bytes that have arrived, and the end if it has. -/
structure Stream where
  queue : Octets
  ending : Option Ending

namespace Stream

/-- `POLLIN`: there are bytes, or the stream is at its end. -/
def ready (s : Stream) : Bool := !s.queue.isEmpty || s.ending.isSome

/-- Whether a call of `read` or `recv` can return with `k`; a signal can always interrupt it. -/
def answers (s : Stream) : Offer → Bool
  | .data x xs => (x :: xs).isPrefixOf s.queue
  | .eof => s.queue.isEmpty && s.ending == some .eof
  | .eintr => true
  | .again => false
  | .error => s.ending == some .reset

def arrive (s : Stream) (d : Octets) : Option Stream :=
  if s.ending.isSome then none else some { s with queue := s.queue ++ d }

def close (s : Stream) (how : Ending) : Option Stream :=
  if s.ending.isSome then none else some { s with ending := some how }

def drop (s : Stream) (n : Nat) : Stream := { s with queue := s.queue.drop n }

end Stream

/-- `tunnel_run` with its plaintext and its encrypted descriptor. -/
structure Proxy where
  ep : Endpoint
  pt : Stream
  enc : Stream

inductive ProxyEv where
  | ptArrives (d : Octets)
  | ptEnds (how : Ending)
  | encArrives (d : Octets)
  | encEnds (how : Ending)
  /-- The call that `tunnel_run` makes returns. -/
  | call (ev : Ev)

/-- Whether the call can return with `ev`. -/
def Proxy.allows (p : Proxy) : Ev → Bool
  | .poll (.ready rev) => rev.ptIn == p.pt.ready && rev.encIn == p.enc.ready
  | .read k => p.pt.answers k
  | .recv k => !p.ep.fr.recvs || p.enc.answers k
  | .pollRecv (.ready k) => p.enc.answers k
  | _ => true

def Endpoint.readSince (e e' : Endpoint) : Octets := e'.log.readPt.drop e.log.readPt.length

def Proxy.step (lib : OpenSsl) (b : Backend) (p : Proxy) : ProxyEv → Option Proxy
  | .ptArrives d => (p.pt.arrive d).map fun s => { p with pt := s }
  | .ptEnds how => (p.pt.close how).map fun s => { p with pt := s }
  | .encArrives d => (p.enc.arrive d).map fun s => { p with enc := s }
  | .encEnds how => (p.enc.close how).map fun s => { p with enc := s }
  | .call ev =>
    if p.allows ev then
      (AegisTunnel.step lib b p.ep ev).map fun e =>
        ⟨e, p.pt.drop (p.ep.readSince e).length, p.enc.drop (p.ep.recvdSince e).length⟩
    else none

end AegisTunnel
