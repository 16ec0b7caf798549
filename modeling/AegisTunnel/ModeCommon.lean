import AegisTunnel.Handshake

/-! # Rate limit and multi-peer handshake (`src/mode_common.c`)

Handshakes are counted by source address. The server tries its configured peer keys one after the other,
each attempt on the connection as the attempt before has left it. -/

namespace AegisTunnel
open Octets

/-! ### Rate limit -/

def rateMaxIps : Nat := 32
def rateMaxAttempts : Nat := 5
def rateWindowSec : Int64 := 60
def inetAddrstrlen : Nat := 16

def inetNtop (ip : UInt32) : List Char :=
  List.intercalate ['.'] (([24, 16, 8, 0] : List UInt32).map fun i => Nat.toDigits 10 ((ip >>> i) &&& 0xff).toNat)

/-- `rate_entry_t`; the text of `ip` ends before its terminator. The `int` of `count`, which 2^31 attempts in one window
would overflow, has no bound here. -/
structure RateEntry where
  ip : List Char
  count : Nat
  windowStart : Int64
  deriving DecidableEq

structure RateTable where
  slots : List.Vector RateEntry rateMaxIps
  nextSlot : Fin rateMaxIps
  deriving DecidableEq

def rateInit : RateTable := ⟨List.Vector.replicate _ ⟨[], 0, 0⟩, ⟨0, by decide⟩⟩

/-- The slot in use for an address. -/
def RateTable.slotOf (t : RateTable) (ip : List Char) : Option (Fin rateMaxIps) :=
  (List.finRange rateMaxIps).find? fun i => (t.slots.get i).ip ≠ [] && (t.slots.get i).ip == ip

/-- `handshake_rate_check`: whether the handshake is allowed. -/
def handshakeRateCheck (ip : List Char) (now : Int64) (t : RateTable) : Bool × RateTable :=
  match t.slotOf ip with
  | some i =>
    let e := t.slots.get i
    if now - e.windowStart > rateWindowSec then
      (true, { t with slots := t.slots.set i { e with count := 1, windowStart := now } })
    else
      let e := { e with count := e.count + 1 }
      (!(e.count > rateMaxAttempts), { t with slots := t.slots.set i e })
  | none =>
    (true,
      { slots := t.slots.set t.nextSlot ⟨ip.take (inetAddrstrlen - 1), 1, now⟩
        nextSlot := ⟨(t.nextSlot + 1) % rateMaxIps, Nat.mod_lt _ (by decide)⟩ })

/-! ### Multi-peer handshake -/

/-- The loop of `try_handshake_server` from the peer with index `i` on. -/
def tryPeers (lib : OpenSsl) (b : Backend) (asymPriv : Word 32) : Nat → List (Word 32) → Hs (Nat × SessionKeys)
  | _, [] => Run.fail
  | i, peer :: peers =>
    Run.orElse (do
      let keys ← handshakeServer lib b asymPriv peer
      pure (i, keys))
    (tryPeers lib b asymPriv (i + 1) peers)

/-- `try_handshake_server`: the index of the peer and the session keys, or none for -1. -/
def tryHandshakeServer (lib : OpenSsl) (b : Backend) (asymPriv : Word 32) (asymPeers : List (Word 32)) :
    Hs (Nat × SessionKeys) :=
  tryPeers lib b asymPriv 0 asymPeers

end AegisTunnel
