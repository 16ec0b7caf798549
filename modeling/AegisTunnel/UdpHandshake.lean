import AegisTunnel.Handshake

/-! # Handshake in datagrams (`src/mode_tun_udp.c`)

The messages and keys of the TCP handshake, carried in whole datagrams. The server's side is inlined in
its main loop: what it does with one initial datagram is here, the wait for the confirmation is part of
that loop. The session keys leave out the ephemeral keys, unlike those of `asym_sess`. -/

namespace AegisTunnel
open Octets

def udpHsDgram : Nat := 60

/-- `udp_hs_build`. -/
def udpHsBuild (b : Backend) (ephPub : Word 32) (ts : Int64) (key : Block) : Octets :=
  let ad := [frameHandshake, flagNone, 0, 8] ++ ephPub.toList
  let r := aegisEncrypt b (tsBytes ts) ad (Word.zero 16) key
  ad ++ r.1 ++ r.2.toList

/-- `udp_hs_parse` of the 60 bytes of a datagram: the ephemeral key and the timestamp. The associated data
    has the header as it came. -/
def udpHsParse (b : Backend) (dgram : Octets) (key : Block) : Option (Word 32 × Int64) :=
  if dgram.getD 0 0 ≠ frameHandshake then none
  else
    let ephPub : Word 32 := load 32 (dgram.drop 4)
    let ad := dgram.take 4 ++ ephPub.toList
    let r := aegisDecrypt b ((dgram.drop 36).take 8) ad (Word.zero 16) key (load 16 (dgram.drop 44))
    if r.ret ≠ 0 then none else some (ephPub, bytesTs r.dst)

/-- The window test, the same in `udp_handshake_server`, `udp_handshake_client` and the main loop of the
    server: there is no replay cache here. -/
def udpWindow (ts : Int64) : Hs Unit := do
  let now ← timestampNow
  if now < 0 then Run.fail
  else if (if now > ts then now - ts else ts - now) > 60 then Run.fail
  else pure ()

/-- The digest whose halves are the session keys. -/
def udpSess (lib : OpenSsl) (sh : Word 32) : Word 32 := lib.sha256 (sh.toList ++ sessionLabel)

/-- The datagram with a KEY_CONFIRM frame. Its payload is empty, so `frame_build` makes one. -/
def udpConfirm (b : Backend) (encKey : Block) : Octets := (frameBuild b frameKeyconfirm 0 [] 0 encKey).getD []

/-- Whether the first 20 bytes of a datagram are a KEY_CONFIRM frame under the key. -/
def udpConfirmed (b : Backend) (decKey : Block) (dgram : Octets) : Bool :=
  let ckw := dgram.take (frameHeaderLen + aegisTagLen)
  if ckw.length ≥ frameHeaderLen + aegisTagLen then
    match frameParse b ckw 0 decKey with
    | .ok f => f.type == frameKeyconfirm
    | _ => false
  else false

/-! ### The server's answer -/

/-- What the server has made of an initial datagram: `peer_matched`, the keys, and the two datagrams that
    it sends. -/
structure UdpOffer where
  peer : Nat
  keys : SessionKeys
  resp : Octets
  confirm : Octets
  deriving DecidableEq

def udpAnswer (lib : OpenSsl) (b : Backend) (asymPriv : Word 32) (dgram : Octets) (pi : Nat) (peer : Word 32) :
    Hs UdpOffer := do
  let iepk : Word 32 := load 32 (dgram.drop 4)
  let ee ← deriveInto lib asymPriv iepk
  let esInit ← deriveInto lib asymPriv peer
  match udpHsParse b dgram (initKey lib ee esInit) with
  | none => Run.fail
  | some (_, its) =>
    udpWindow its
    let e ← ecdhKeygen
    -- The buffer `ee` is used again: where the derivation fails it keeps what it held.
    let ee := (ecdhDerive lib asymPriv iepk).getD ee
    let es ← deriveInto lib asymPriv peer
    let se ← deriveInto lib e.priv peer
    let sh := asymShared lib ee es se
    let h := udpSess lib sh
    let keys : SessionKeys := { decKey := firstHalf h, encKey := secondHalf h }
    let ts ← timestampNow
    pure ⟨pi, keys, udpHsBuild b e.pub ts (asymResp lib sh), udpConfirm b keys.encKey⟩

/-- The loop over the configured peers, from the one with index `pi` on. -/
def udpTryPeers (lib : OpenSsl) (b : Backend) (asymPriv : Word 32) (dgram : Octets) : Nat → List (Word 32) → Hs UdpOffer
  | _, [] => Run.fail
  | pi, peer :: peers =>
    Run.orElse (udpAnswer lib b asymPriv dgram pi peer) (udpTryPeers lib b asymPriv dgram (pi + 1) peers)

/-! ### The client -/

/-- What the client's calls find: `host` for clock, key generation and unwritten buffers, `dgrams` for
    `recv`, where none is an error, and `sends` for `send`, which after it succeeds; `sent` is what was sent. -/
structure UdpClient where
  host : World
  dgrams : List (Option Octets)
  sends : List Bool
  sent : List Octets

abbrev UdpHs := Run UdpClient

def onHost {α : Type} (x : Hs α) : UdpHs α := Run.zoom UdpClient.host (fun c w => { c with host := w }) x

def udpSend (dgram : Octets) : UdpHs Unit := fun c =>
  match c.sends with
  | [] => (some (), { c with sent := c.sent ++ [dgram] })
  | true :: q => (some (), { c with sent := c.sent ++ [dgram], sends := q })
  | false :: q => (none, { c with sends := q })

/-- `udp_recv`: one datagram, of which at most `maxlen` bytes are kept. -/
def udpRecv (maxlen : Nat) : UdpHs Octets := fun c =>
  match c.dgrams with
  | [] => (none, c)
  | none :: q => (none, { c with dgrams := q })
  | some d :: q => (some (d.take maxlen), { c with dgrams := q })

/-- `udp_handshake_client` from the KEY_CONFIRM of the server on. -/
def udpClientConfirm (b : Backend) (keys : SessionKeys) : UdpHs SessionKeys := do
  let kw ← udpRecv (frameHeaderLen + aegisTagLen)
  if udpConfirmed b keys.decKey kw then do
    udpSend (udpConfirm b keys.encKey)
    pure keys
  else Run.fail

def udpHandshakeClient (lib : OpenSsl) (b : Backend) (asymPriv peer : Word 32) : UdpHs SessionKeys := do
  let e ← onHost ecdhKeygen
  let eeInit ← onHost (deriveInto lib e.priv peer)
  let esInit ← onHost (deriveInto lib asymPriv peer)
  let ts ← onHost timestampNow
  udpSend (udpHsBuild b e.pub ts (initKey lib eeInit esInit))
  let dgram ← udpRecv udpHsDgram
  if dgram.length < udpHsDgram then Run.fail
  else
    let repk : Word 32 := load 32 (dgram.drop 4)
    let ee ← onHost (deriveInto lib e.priv peer)
    let es ← onHost (deriveInto lib asymPriv peer)
    let se ← onHost (deriveInto lib asymPriv repk)
    let sh := asymShared lib ee es se
    match udpHsParse b dgram (asymResp lib sh) with
    | none => Run.fail
    | some (_, rts) =>
      onHost (udpWindow rts)
      let h := udpSess lib sh
      udpClientConfirm b { encKey := firstHalf h, decKey := secondHalf h }

end AegisTunnel
