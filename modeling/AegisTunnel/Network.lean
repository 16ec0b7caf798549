import AegisTunnel.Tunnel

/-! # Two ends of a tunnel

Two endpoints that take their steps in any order: on their own, where whatever arrives arrives, and connected
by two lossless byte streams. -/

namespace AegisTunnel
open Octets

inductive Side where
  | a
  | b
  deriving DecidableEq

def Side.other : Side → Side
  | .a => .b
  | .b => .a

structure Pair where
  a : Endpoint
  b : Endpoint

def Pair.get (p : Pair) : Side → Endpoint
  | .a => p.a
  | .b => p.b

def Pair.set (p : Pair) (e : Endpoint) : Side → Pair
  | .a => { p with a := e }
  | .b => { p with b := e }

def Pair.step (lib : OpenSsl) (backend : Side → Backend) (p : Pair) (ev : Side × Ev) : Option Pair :=
  (AegisTunnel.step lib (backend ev.1) (p.get ev.1) ev.2).map fun e => p.set e ev.1

/-- The two, with the bytes on their way from each end. -/
structure Net where
  ends : Pair
  way : Side → Octets

def Endpoint.sentSince (e e' : Endpoint) : Octets := e'.log.sent.drop e.log.sent.length

/-- The bytes received between `e` and a later `e'`, by `frame_reader_fill` or by `recv_all`. -/
def Endpoint.recvdSince (e e' : Endpoint) : Octets := e'.log.recvd.drop e.log.recvd.length

/-- The bytes on the way after the end `side` has sent `x` and received `y`. -/
def Net.moved (n : Net) (side : Side) (x y : Octets) (from_ : Side) : Octets :=
  if from_ = side then n.way from_ ++ x else (n.way from_).drop y.length

/-- One of the two takes a step; it receives only what is on the way to it. -/
def Net.step (lib : OpenSsl) (backend : Side → Backend) (n : Net) (ev : Side × Ev) : Option Net := do
  let e := n.ends.get ev.1
  let e' ← AegisTunnel.step lib (backend ev.1) e ev.2
  if (e.recvdSince e').isPrefixOf (n.way ev.1.other) then
    some ⟨n.ends.set e' ev.1, n.moved ev.1 (e.sentSince e') (e.recvdSince e')⟩
  else none

end AegisTunnel
