import AegisTunnel.Frame
import AegisTunnel.Io
import AegisTunnel.Lib.Run

/-! # Handshake and key confirmation (`src/protocol/handshake.c`, `src/protocol/ecdh.c`)

The functions run against the answers that their calls get, in order. X25519 and SHA-256 are
parameters. -/

namespace AegisTunnel
open Octets

/-- The functions of OpenSSL that the program calls; `x25519` fails on a low-order point. -/
structure OpenSsl where
  x25519 : Word 32 → Word 32 → Option (Word 32)
  sha256 : Octets → Word 32

structure KeyPair where
  priv : Word 32
  pub : Word 32

structure SessionKeys where
  encKey : Block
  decKey : Block
  deriving DecidableEq

def handshakeWindow : Int64 := 60
def replaySlots : Nat := 128

/-- `replay_entry_t`: the timestamp and the first eight bytes of the ephemeral key. -/
structure ReplayEntry where
  ts : Int64
  ephPrefix : Word 8
  deriving DecidableEq

structure ReplayCache where
  slots : List.Vector ReplayEntry replaySlots
  idx : Fin replaySlots

def replayInit : ReplayCache := ⟨List.Vector.replicate _ ⟨0, Word.zero 8⟩, ⟨0, by decide⟩⟩

/-- What the calls of a handshake find. `inbox` answers `poll` and `recv`, and runs into the timeout at
    its end; `sends` answers `send`, which after it takes all it is given; `outbox` is what has been sent.
    `clock` answers `timestamp_now` and `keygens` answers `ecdh_keygen`, both failing at their end, and
    `stack` is what buffers hold that no call has written. -/
structure World where
  inbox : List PollRecv
  sends : List Sent
  outbox : Octets
  clock : List Int64
  keygens : List (Option KeyPair)
  stack : List (Word 32)
  replay : ReplayCache

abbrev Hs := Run World

/-! ### Calls -/

/-- `send_all` from the bytes still pending: the result, the bytes sent and the answers left. -/
def sendLoop : Octets → List Sent → Option Unit × Octets × List Sent
  | pending, [] => (some (), pending, [])
  | pending, k :: q =>
    if pending.isEmpty then (some (), [], k :: q)
    else match sendAllRound pending k with
      | none => (none, [], q)
      | some rest =>
        let r := sendLoop rest q
        (r.1, k.bytes pending ++ r.2.1, r.2.2)

def sendAll (b : Octets) : Hs Unit := fun w =>
  let r := sendLoop b w.sends
  (r.1, { w with outbox := w.outbox ++ r.2.1, sends := r.2.2 })

/-- `recv_all` for `n` bytes from the bytes received so far: the result and the answers left. Bytes
    without room stay at the front; then the `n` bytes are complete. -/
def recvLoop (n : Nat) : Octets → List PollRecv → Option Octets × List PollRecv
  | got, [] => if got.length < n then (none, []) else (some got, [])
  | got, k :: q =>
    if got.length < n then
      match recvAllRound n got k with
      | none => (none, q)
      | some got' =>
        match k.left (n - got.length) with
        | [] => recvLoop n got' q
        | c :: cs => (some got', .ready (.data c cs) :: q)
    else (some got, k :: q)

def recvAll (n : Nat) : Hs Octets := fun w =>
  let r := recvLoop n [] w.inbox
  (r.1, { w with inbox := r.2 })

def timestampNow : Hs Int64 := fun w =>
  match w.clock with
  | [] => (some (-1), w)
  | t :: ts => (some t, { w with clock := ts })

def ecdhKeygen : Hs KeyPair := fun w =>
  match w.keygens with
  | [] => (none, w)
  | k :: ks => (k, { w with keygens := ks })

def ecdhDerive (lib : OpenSsl) (ourPriv peerPub : Word 32) : Option (Word 32) :=
  (lib.x25519 ourPriv peerPub).map fun raw => lib.sha256 raw.toList

/-- A call of `ecdh_derive` whose return code is ignored: on failure the buffer keeps what it held. -/
def deriveInto (lib : OpenSsl) (ourPriv peerPub : Word 32) : Hs (Word 32) := fun w =>
  match ecdhDerive lib ourPriv peerPub, w.stack with
  | some s, _ => (some s, w)
  | none, [] => (some (Word.zero 32), w)
  | none, j :: js => (some j, { w with stack := js })

/-! ### Timestamps -/

def isReplayIn (cache : ReplayCache) (ts : Int64) (ephPub : Word 32) : Bool :=
  cache.slots.toList.any fun e => e.ts == ts && e.ephPrefix == load 8 ephPub.toList

/-- `is_replay`: a handshake not seen before is entered into the cache. -/
def isReplay (ts : Int64) (ephPub : Word 32) : Hs Bool := fun w =>
  if isReplayIn w.replay ts ephPub then (some true, w)
  else
    (some false, { w with
      replay :=
        { slots := w.replay.slots.set w.replay.idx ⟨ts, load 8 ephPub.toList⟩
          idx := ⟨(w.replay.idx + 1) % replaySlots, Nat.mod_lt _ (by decide)⟩ } })

def checkTs (ts : Int64) (ephPub : Word 32) : Hs Unit := do
  let n ← timestampNow
  if n < 0 then Run.fail
  else
    let d := if n > ts then n - ts else ts - n
    if d > handshakeWindow then Run.fail
    else
      let seen ← isReplay ts ephPub
      if seen then Run.fail else pure ()

def tsBytes (ts : Int64) : Octets :=
  ([7, 6, 5, 4, 3, 2, 1, 0] : List UInt64).map fun i => (ts.toUInt64 >>> (i * 8)).toUInt8

def bytesTs (tsb : Octets) : Int64 :=
  (tsb.foldl (fun (tb : UInt64) (x : UInt8) => (tb <<< 8) ||| x.toUInt64) 0).toInt64

/-! ### Messages -/

def asymHeader : Octets := [frameHandshake, flagNone, 0, 8]

/-- The 60 bytes of a handshake message. -/
def asymWire (b : Backend) (epk : Word 32) (ts : Int64) (key : Block) : Octets :=
  let ad := asymHeader ++ epk.toList
  let r := aegisEncrypt b (tsBytes ts) ad (Word.zero 16) key
  ad ++ r.1 ++ r.2.toList

def asymSend (b : Backend) (epk : Word 32) (ts : Int64) (key : Block) : Hs Unit := sendAll (asymWire b epk ts key)

def asymHdr : Hs (Word 32) := do
  let w ← recvAll 36
  pure (load 32 (w.drop 4))

def asymTs (b : Backend) (epk : Word 32) (key : Block) : Hs Int64 := do
  let ct ← recvAll 24
  let r := aegisDecrypt b (ct.take 8) (asymHeader ++ epk.toList) (Word.zero 16) key (load 16 (ct.drop 8))
  if r.ret ≠ 0 then Run.fail else pure (bytesTs r.dst)

/-! ### Key derivation -/

/-- The characters of "init", "shared", "resp" and "session". -/
def initLabel : Octets := [0x69, 0x6e, 0x69, 0x74]
def sharedLabel : Octets := [0x73, 0x68, 0x61, 0x72, 0x65, 0x64]
def respLabel : Octets := [0x72, 0x65, 0x73, 0x70]
def sessionLabel : Octets := [0x73, 0x65, 0x73, 0x73, 0x69, 0x6f, 0x6e]

def firstHalf (h : Word 32) : Block := load 16 h.toList

def secondHalf (h : Word 32) : Block := load 16 (h.toList.drop 16)

/-- The key of the first message, as both ends compute it. -/
def initKey (lib : OpenSsl) (ee es : Word 32) : Block :=
  firstHalf (lib.sha256 (ee.toList ++ es.toList ++ initLabel))

def asymInitKey (lib : OpenSsl) (ek sk pk : Word 32) : Hs Block := do
  let ee ← deriveInto lib ek pk
  let es ← deriveInto lib sk pk
  pure (initKey lib ee es)

def asymShared (lib : OpenSsl) (ee es se : Word 32) : Word 32 :=
  lib.sha256 (ee.toList ++ es.toList ++ se.toList ++ sharedLabel)

def asymResp (lib : OpenSsl) (sh : Word 32) : Block := firstHalf (lib.sha256 (sh.toList ++ respLabel))

def asymSess (lib : OpenSsl) (sh ei er : Word 32) : SessionKeys :=
  let h := lib.sha256 (sh.toList ++ ei.toList ++ er.toList ++ sessionLabel)
  ⟨firstHalf h, secondHalf h⟩

/-! ### The two sides -/

def handshakeServer (lib : OpenSsl) (b : Backend) (ourPriv peerPub : Word 32) : Hs SessionKeys := do
  let iepk ← asymHdr
  let ee ← deriveInto lib ourPriv iepk
  let es ← deriveInto lib ourPriv peerPub
  let its ← asymTs b iepk (initKey lib ee es)
  checkTs its iepk
  let e ← ecdhKeygen
  let ee ← deriveInto lib ourPriv iepk
  let es ← deriveInto lib ourPriv peerPub
  let se ← deriveInto lib e.priv peerPub
  let sh := asymShared lib ee es se
  let keys := asymSess lib sh iepk e.pub
  let ts ← timestampNow
  asymSend b e.pub ts (asymResp lib sh)
  -- The server sends with the key that the client receives with.
  if ts < 0 then Run.fail else pure ⟨keys.decKey, keys.encKey⟩

def handshakeClient (lib : OpenSsl) (b : Backend) (ourPriv peerPub : Word 32) : Hs SessionKeys := do
  let e ← ecdhKeygen
  let ik ← asymInitKey lib e.priv ourPriv peerPub
  let ts ← timestampNow
  asymSend b e.pub ts ik
  let repk ← asymHdr
  let ee ← deriveInto lib e.priv peerPub
  let es ← deriveInto lib ourPriv peerPub
  let se ← deriveInto lib ourPriv repk
  let sh := asymShared lib ee es se
  let rts ← asymTs b repk (asymResp lib sh)
  checkTs rts repk
  pure (asymSess lib sh e.pub repk)

/-! ### Key confirmation -/

def handshakeKeyConfirmServer (b : Backend) (k : SessionKeys) : Hs Unit :=
  match frameBuild b frameKeyconfirm flagNone [] 0 k.encKey with
  | none => Run.fail
  | some wb => sendAll wb

def handshakeKeyConfirmClient (b : Backend) (k : SessionKeys) : Hs Unit := do
  let wb ← recvAll (frameHeaderLen + aegisTagLen)
  match frameParse b wb 0 k.decKey with
  | .ok f => if f.type = frameKeyconfirm then pure () else Run.fail
  | _ => Run.fail

end AegisTunnel
