import AegisTunnel.Handshake

/-! # Session re-keying (`handshake_rekey` in `src/protocol/handshake.c`)

The function as a machine that takes one answer of the outside world at a time, so that it can run inside
the event loop of a tunnel while the other end takes its own steps. What an endpoint has built, accepted,
sent and received is written down in a log that nothing reads. -/

namespace AegisTunnel
open Octets

/-- A frame with the key and the counter under which it was built or accepted, and its bytes. -/
structure FrameRec where
  key : Block
  ctr : UInt64
  frame : Frame
  wire : Octets

/-- The history of an endpoint: frames built and accepted, bytes sent to and received from the encrypted
    descriptor, bytes read from and written to the plaintext one. -/
structure Log where
  built : List FrameRec
  accepted : List FrameRec
  sent : Octets
  recvd : Octets
  readPt : Octets
  wrote : Octets

namespace Log

def empty : Log := ⟨[], [], [], [], [], []⟩
def build (log : Log) (r : FrameRec) : Log := { log with built := log.built ++ [r] }
def accept (log : Log) (r : FrameRec) : Log := { log with accepted := log.accepted ++ [r] }
def send (log : Log) (d : Octets) : Log := { log with sent := log.sent ++ d }
def recv (log : Log) (d : Octets) : Log := { log with recvd := log.recvd ++ d }
def read (log : Log) (d : Octets) : Log := { log with readPt := log.readPt ++ d }
def write (log : Log) (d : Octets) : Log := { log with wrote := log.wrote ++ d }

end Log

/-- What `poll` finds in `tunnel_run`: `POLLIN` and the error bits of the two descriptors. -/
structure Revents where
  ptIn : Bool
  encIn : Bool
  ptErr : Bool
  encErr : Bool

inductive PollRes where
  | eintr
  | error
  | ready (rev : Revents)

/-- The answers of the outside world, one for each call of the program. -/
inductive Ev where
  /-- No call: the next frame of the buffer is looked at. -/
  | tick
  /-- The value of `tun->running && g_running`. -/
  | running (on : Bool)
  | time (t : Int64)
  | poll (r : PollRes)
  /-- `read` on the plaintext descriptor. -/
  | read (k : Offer)
  | write (k : Sent)
  | send (k : Sent)
  /-- `recv` in `fill_buffer`. -/
  | recv (k : Offer)
  /-- A round of `recv_all`. -/
  | pollRecv (k : PollRecv)
  | keygen (k : Option KeyPair)
  /-- What the two calls of `random_bytes` leave in their buffers, and whether `malloc` succeeds. -/
  | mix (nc2 ns : Block) (alloc : Bool)

/-- Where a call of `handshake_rekey` is: before `ecdh_keygen`; in `send_all`, with the peer's key if it
    is known by then; in `recv_all`; before the new keys are computed. -/
inductive RekeyPc where
  | keygen
  | send (own : KeyPair) (pending : Octets) (peer : Option (Word 32))
  | recv (own : KeyPair) (got : Octets)
  | mix (own : KeyPair) (peer : Word 32)

/-- A call in progress: `init`, the counter `*nc` and the place. -/
structure Rekey where
  init : Bool
  nc : UInt64
  pc : RekeyPc

def Rekey.start (init : Bool) (nc : UInt64) : Rekey := ⟨init, nc, .keygen⟩

/-- The call goes on, returns -1, or returns 0 with new keys and `*nc = 0`. -/
inductive RekeyRes where
  | running (r : Rekey)
  | failed
  | done (keys : SessionKeys)

def rekeyWireLen : Nat := frameHeaderLen + 32 + aegisTagLen

def rekeyBuild (b : Backend) (keys : SessionKeys) (r : Rekey) (own : KeyPair) (peer : Option (Word 32)) (log : Log) :
    RekeyRes × Log :=
  match frameBuild b frameRekey flagNone own.pub.toList r.nc keys.encKey with
  | none => (.failed, log)
  | some wire =>
    (.running { r with nc := r.nc + 1, pc := .send own wire peer },
      log.build ⟨keys.encKey, r.nc, ⟨frameRekey, flagNone, own.pub.toList⟩, wire⟩)

/-- The new keys; the two ends take the halves of the digest the other way round. -/
def rekeyKeys (lib : OpenSsl) (init : Bool) (psk : Octets) (sh : Word 32) (nc2 ns : Block) : SessionKeys :=
  let h := lib.sha256 (psk ++ sh.toList ++ nc2.toList ++ ns.toList)
  if init then ⟨firstHalf h, secondHalf h⟩ else ⟨secondHalf h, firstHalf h⟩

/-- The 52 bytes are there: parse them, whatever their type, and go on. -/
def rekeyParse (b : Backend) (keys : SessionKeys) (r : Rekey) (own : KeyPair) (rb : Octets) (log : Log) :
    RekeyRes × Log :=
  match frameParse b rb r.nc keys.decKey with
  | .ok f =>
    let log := log.accept ⟨keys.decKey, r.nc, f, rb⟩
    let r := { r with nc := r.nc + 1 }
    let ppub := load 32 f.payload
    if r.init then (.running { r with pc := .mix own ppub }, log) else rekeyBuild b keys r own (some ppub) log
  | _ => (.failed, log)

/-- One step of `handshake_rekey`; `none` where the event is not an answer to the call it makes. -/
def rekeyStep (lib : OpenSsl) (b : Backend) (psk : Octets) (keys : SessionKeys) (r : Rekey) (log : Log) (ev : Ev) :
    Option (RekeyRes × Log) :=
  match r.pc, ev with
  | .keygen, .keygen none => some (.failed, log)
  | .keygen, .keygen (some own) =>
    if r.init then some (rekeyBuild b keys r own none log)
    else some (.running { r with pc := .recv own [] }, log)
  | .send own pending peer, .send k =>
    let log := log.send (k.bytes pending)
    match sendAllRound pending k, peer with
    | none, _ => some (.failed, log)
    | some [], none => some (.running { r with pc := .recv own [] }, log)
    | some [], some ppub => some (.running { r with pc := .mix own ppub }, log)
    | some rest, peer => some (.running { r with pc := .send own rest peer }, log)
  | .recv own got, .pollRecv k =>
    let log := log.recv (k.taken (rekeyWireLen - got.length))
    match recvAllRound rekeyWireLen got k with
    | none => some (.failed, log)
    | some rb =>
      if rb.length < rekeyWireLen then some (.running { r with pc := .recv own rb }, log)
      else some (rekeyParse b keys r own rb log)
  | .mix own ppub, .mix nc2 ns alloc =>
    -- `nc2` and `ns` are drawn at this end and never sent to the other.
    match ecdhDerive lib own.priv ppub with
    | none => some (.failed, log)
    | some sh => if alloc then some (.done (rekeyKeys lib r.init psk sh nc2 ns), log) else some (.failed, log)
  | _, _ => none

/-- A call of `handshake_rekey` on its own, over the events `evs`. -/
def rekeyRun (lib : OpenSsl) (b : Backend) (psk : Octets) (keys : SessionKeys) :
    Rekey → Log → List Ev → Option (RekeyRes × Log)
  | r, log, [] => some (.running r, log)
  | r, log, ev :: evs =>
    match rekeyStep lib b psk keys r log ev with
    | some (.running r', log') => rekeyRun lib b psk keys r' log' evs
    | some res => if evs.isEmpty then some res else none
    | none => none

end AegisTunnel
