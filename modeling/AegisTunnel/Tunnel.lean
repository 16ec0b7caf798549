import AegisTunnel.FrameReader
import AegisTunnel.Rekey

/-! # The event loop (`tunnel_init`, `tunnel_send_data`, `write_all` and `tunnel_run` in `src/tunnel/tunnel.c`)

`tunnel_run` as a machine that takes one answer of the outside world at a time. -/

namespace AegisTunnel
open Octets

def nonceOverflowLimit : UInt64 := 0xFFFFFFFFFFFFFFF0
def nonceRekeyMargin : UInt64 := 10000

/-- `tunnel_t`, without the descriptors. `psk` always is the session PSK that `tunnel_init` derives. -/
structure Tun where
  encKey : Block
  decKey : Block
  encNonce : UInt64
  decNonce : UInt64
  keepaliveSec : Int64
  rekeySec : Int64
  psk : Octets

def tunnelInit (encKey decKey : Block) : Tun where
  encKey := encKey
  decKey := decKey
  encNonce := 1
  decNonce := 1
  keepaliveSec := 0
  rekeySec := 120
  psk := (encKey.xor decKey).toList

def Tun.keys (tun : Tun) : SessionKeys := ⟨tun.encKey, tun.decKey⟩

/-- The call that `tunnel_run` makes next. -/
inductive Pc where
  | startKa
  | startRekey
  | head
  | poll
  | read (drained : Nat) (rev : Revents)
  | sendData (pending : Octets) (drained : Nat) (rev : Revents)
  | sendClose (wire : Octets)
  | fill (rev : Revents)
  | extract (rev : Revents)
  | write (pending : Octets) (rev : Revents)
  | respond (r : Rekey) (rev : Revents)
  | kaTime
  | sendKa (wire : Octets)
  | rekeyTime
  | initiate (r : Rekey)
  | rekeyed
  | returned (ret : Int)

/-- A running `tunnel_run`: the tunnel, the local variables, the place and the history. -/
structure Endpoint where
  tun : Tun
  fr : FrameReader
  lastKa : Int64
  lastRekey : Int64
  pc : Pc
  log : Log

/-- A call of `tunnel_run` on `tun`, of an endpoint with the history `log`. -/
def tunnelStart (tun : Tun) (log : Log) : Endpoint := ⟨tun, frameReaderInit, 0, 0, .startKa, log⟩

/-- Who calls `tunnel_run`: the client and the server of the proxy and TUN modes, and those of the SOCKS5
    modes, where the client has sent a connect request. -/
inductive Mode where
  | client
  | server
  | socksClient (req : Octets)
  | socksServer

/-- The frame that the caller has built before, with its counter: `handshake_key_confirm_server` or
    `send_connect_req`. -/
def Mode.before : Mode → Option (UInt64 × Frame)
  | .client => none
  | .server => some (0, ⟨frameKeyconfirm, flagNone, []⟩)
  | .socksClient req => some (1, ⟨frameData, flagNone, req⟩)
  | .socksServer => some (0, ⟨frameKeyconfirm, flagNone, []⟩)

def Mode.tun (keys : SessionKeys) (keepalive : Int64) : Mode → Tun
  | .client | .server => { tunnelInit keys.encKey keys.decKey with keepaliveSec := keepalive }
  | .socksClient _ | .socksServer =>
    { tunnelInit keys.encKey keys.decKey with encNonce := 2, decNonce := 2, keepaliveSec := keepalive }

/-- `tunnel_run` as it is called, unless the frame before it could not be built. -/
def Mode.start (b : Backend) (keys : SessionKeys) (keepalive : Int64) (m : Mode) : Option Endpoint :=
  match m.before with
  | none => some (tunnelStart (m.tun keys keepalive) Log.empty)
  | some (ctr, f) =>
    (frameBuild b f.type f.flags f.payload ctr keys.encKey).map fun wire =>
      tunnelStart (m.tun keys keepalive) (Log.empty.build ⟨keys.encKey, ctr, f, wire⟩)

/-! ### The way through the loop -/

/-- `goto do_rekey`. -/
def doRekey (tun : Tun) : Pc := .initiate (Rekey.start true tun.encNonce)

/-- From the test for nonce pressure on. -/
def pressurePc (tun : Tun) : Pc :=
  if tun.encNonce ≥ nonceOverflowLimit - nonceRekeyMargin then doRekey tun
  else if tun.rekeySec > 0 ∧ tun.encNonce < nonceOverflowLimit then .rekeyTime
  else .head

/-- From the keepalive on. -/
def keepalivePc (tun : Tun) : Pc :=
  if tun.keepaliveSec > 0 ∧ tun.encNonce < nonceOverflowLimit then .kaTime else pressurePc tun

/-- From the error conditions on. -/
def errorsPc (tun : Tun) (rev : Revents) : Pc :=
  if rev.ptErr then .returned 0
  else if rev.encErr then .returned 0
  else keepalivePc tun

/-- From the encrypted side on. -/
def encryptedPc (tun : Tun) (rev : Revents) : Pc := if rev.encIn then .fill rev else errorsPc tun rev

/-- Build a frame with the next counter of the tunnel, which goes up by one, and go on at `pc wire`. -/
def Endpoint.build (b : Backend) (e : Endpoint) (type : UInt8) (d : Octets) (pc : Octets → Pc) (failed : Pc) : Endpoint :=
  match frameBuild b type flagNone d e.tun.encNonce e.tun.encKey with
  | none => { e with pc := failed }
  | some wire =>
    { e with
      tun := { e.tun with encNonce := e.tun.encNonce + 1 }
      pc := pc wire
      log := e.log.build ⟨e.tun.encKey, e.tun.encNonce, ⟨type, flagNone, d⟩, wire⟩ }

/-- `tunnel_send_data` up to its send loop; the bytes `d` have been read. -/
def sendDataStep (b : Backend) (e : Endpoint) (d : Octets) (drained : Nat) (rev : Revents) : Endpoint :=
  let e := { e with log := e.log.read d }
  -- Without room for the counter, the bytes that were read are dropped.
  if e.tun.encNonce ≥ nonceOverflowLimit then { e with pc := doRekey e.tun }
  else e.build b frameData d (.sendData · drained rev) (.returned (-1))

def readStep (b : Backend) (e : Endpoint) (drained : Nat) (rev : Revents) : Offer → Endpoint
  | .data x xs => sendDataStep b e ((x :: xs).take frameMaxPayload) drained rev
  | .eof =>
    if e.tun.encNonce < nonceOverflowLimit then e.build b frameClose [] .sendClose (.returned 0)
    else { e with pc := .returned 0 }
  | .eintr => e
  | .again => { e with pc := encryptedPc e.tun rev }
  | .error => { e with pc := .returned (-1) }

def sendDataRound (e : Endpoint) (pending : Octets) (drained : Nat) (rev : Revents) (k : Sent) : Endpoint :=
  let e := { e with log := e.log.send (k.bytes pending) }
  match writeAllRound pending k with
  | none => { e with pc := .returned (-1) }
  | some [] => { e with pc := if drained + 1 > 256 then encryptedPc e.tun rev else .read (drained + 1) rev }
  | some rest => { e with pc := .sendData rest drained rev }

def fillStep (e : Endpoint) (rev : Revents) (k : Offer) : Endpoint :=
  let log := if e.fr.recvs then e.log.recv (k.taken e.fr.compact.space) else e.log
  match e.fr.fillBuffer k with
  | (.error, fr) => { e with fr := fr, log := log, pc := .returned (-1) }
  | (.none, fr) => { e with fr := fr, log := log, pc := .returned 0 }
  | (.data, fr) => { e with fr := fr, log := log, pc := .extract rev }

/-- Where the loop goes on with the accepted frame `f`; `decNonce` is the counter after it. -/
def framePc (decNonce : UInt64) (f : Frame) (rev : Revents) : Pc :=
  if f.type = frameClose then .returned 0
  else if f.type = frameKeepalive then .extract rev
  else if f.type = frameKeyconfirm then .extract rev
  else if f.type = frameRekey then .respond (Rekey.start false decNonce) rev
  else if f.payload.length > 0 then .write f.payload rev
  else .extract rev

/-- One round of the loop over the frames in the buffer. -/
def extractStep (b : Backend) (e : Endpoint) (rev : Revents) : Endpoint :=
  if e.tun.decNonce ≥ nonceOverflowLimit - nonceRekeyMargin then { e with pc := doRekey e.tun }
  else if e.tun.decNonce ≥ nonceOverflowLimit then { e with pc := .returned (-1) }
  else match frameReaderTryNext b e.fr e.tun.decNonce e.tun.decKey with
    | .more => { e with pc := errorsPc e.tun rev }
    | .error => { e with pc := .returned (-1) }
    | .frame f fr =>
      { e with
        fr := fr
        tun := { e.tun with decNonce := e.tun.decNonce + 1 }
        log := e.log.accept ⟨e.tun.decKey, e.tun.decNonce, f, e.fr.rest.take (e.fr.rest.length - fr.rest.length)⟩
        pc := framePc (e.tun.decNonce + 1) f rev }

def writeStep (e : Endpoint) (pending : Octets) (rev : Revents) (k : Sent) : Endpoint :=
  let e := { e with log := e.log.write (k.bytes pending) }
  match writeAllRound pending k with
  | none => { e with pc := .returned (-1) }
  | some [] => { e with pc := .extract rev }
  | some rest => { e with pc := .write rest rev }

/-- `handshake_rekey` as responder: on success the new keys, and `dec_nonce = ctr`. -/
def respondStep (e : Endpoint) (rev : Revents) (res : RekeyRes × Log) : Endpoint :=
  match res with
  | (.running r, log) => { e with log := log, pc := .respond r rev }
  | (.failed, log) => { e with log := log, pc := .extract rev }
  | (.done keys, log) =>
    { e with
      tun := { e.tun with encKey := keys.encKey, decKey := keys.decKey, decNonce := 0 }
      log := log
      pc := .extract rev }

/-- `handshake_rekey` as initiator: on success the new keys, and `enc_nonce = ctr`. -/
def initiateStep (e : Endpoint) (res : RekeyRes × Log) : Endpoint :=
  match res with
  | (.running r, log) => { e with log := log, pc := .initiate r }
  -- The local `ctr` goes with the failed call: `enc_nonce` is what it was before the frame of the call.
  | (.failed, log) => { e with log := log, pc := .head }
  | (.done keys, log) =>
    { e with
      tun := { e.tun with encKey := keys.encKey, decKey := keys.decKey, encNonce := 0 }
      log := log
      pc := .rekeyed }

def keepaliveStep (b : Backend) (e : Endpoint) (now : Int64) : Endpoint :=
  if now - e.lastKa ≥ e.tun.keepaliveSec then
    let e' := e.build b frameKeepalive [] .sendKa (pressurePc e.tun)
    { e' with lastKa := now }
  else { e with pc := pressurePc e.tun }

/-- One step of `tunnel_run`; `none` where the event is not an answer to the call it makes. -/
def step (lib : OpenSsl) (b : Backend) (e : Endpoint) (ev : Ev) : Option Endpoint :=
  match e.pc, ev with
  | .startKa, .time t => some { e with lastKa := t, pc := .startRekey }
  | .startRekey, .time t => some { e with lastRekey := t, pc := .head }
  | .head, .running true => some { e with pc := .poll }
  | .head, .running false => some { e with pc := .returned 0 }
  | .poll, .poll .eintr => some { e with pc := .head }
  | .poll, .poll .error => some { e with pc := .returned (-1) }
  | .poll, .poll (.ready rev) => some { e with pc := if rev.ptIn then .read 0 rev else encryptedPc e.tun rev }
  | .read drained rev, .read k => some (readStep b e drained rev k)
  | .sendData pending drained rev, .send k => some (sendDataRound e pending drained rev k)
  -- A CLOSE frame and a keepalive get one `send`, whose result is ignored.
  | .sendClose wire, .send k => some { e with log := e.log.send (k.bytes wire), pc := .returned 0 }
  | .fill rev, .recv k => some (fillStep e rev k)
  | .extract rev, .tick => some (extractStep b e rev)
  | .write pending rev, .write k => some (writeStep e pending rev k)
  | .respond r rev, ev => (rekeyStep lib b e.tun.psk e.tun.keys r e.log ev).map (respondStep e rev)
  | .kaTime, .time now => some (keepaliveStep b e now)
  | .sendKa wire, .send k => some { e with log := e.log.send (k.bytes wire), pc := pressurePc e.tun }
  | .rekeyTime, .time now =>
    some { e with pc := if now - e.lastRekey ≥ e.tun.rekeySec then doRekey e.tun else .head }
  | .initiate r, ev => (rekeyStep lib b e.tun.psk e.tun.keys r e.log ev).map (initiateStep e)
  | .rekeyed, .time t => some { e with lastRekey := t, pc := .head }
  | _, _ => none

end AegisTunnel
