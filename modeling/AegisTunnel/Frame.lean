import AegisTunnel.Crypto.Accel

/-! # Wire frames (`src/tunnel/tunnel.c`, `src/tunnel/tunnel.h`, `src/protocol/handshake.h`)

A frame on the wire is `[type:1][flags:1][length:2 BE][ciphertext:N][tag:16]`; the header is the
associated data. The counter variant takes the nonce from a 64-bit counter, the explicit variant carries
eight random nonce bytes after the length. -/

namespace AegisTunnel
open Octets

def frameHandshake : UInt8 := 0x01
def frameData : UInt8 := 0x02
def frameKeepalive : UInt8 := 0x03
def frameClose : UInt8 := 0x04
def frameKeyconfirm : UInt8 := 0x05
def frameRekey : UInt8 := 0x06
def flagNone : UInt8 := 0x00

def frameHeaderLen : Nat := 4
def frameExplicitHeaderLen : Nat := 12
def aegisTagLen : Nat := 16
def frameMaxPayload : Nat := 65535
def frameMaxWire : Nat := frameHeaderLen + frameMaxPayload + aegisTagLen

structure Frame where
  type : UInt8
  flags : UInt8
  payload : Octets
  deriving DecidableEq

/-! ### Nonces -/

def counterBytes : Nat → UInt64 → Octets
  | 0, _ => []
  | k + 1, counter => (counter &&& 0xff).toUInt8 :: counterBytes k (counter >>> 8)

/-- `little_endian_64(counter) || 0x00 * 8`. -/
def nonceFromCounter (counter : UInt64) : Block := load 16 (counterBytes 8 counter)

/-! ### Headers -/

def frameHeader (type flags : UInt8) (len : Nat) : Octets :=
  [type, flags, UInt8.ofNat ((len >>> 8) &&& 0xff), UInt8.ofNat (len &&& 0xff)]

/-- The length that bytes 2 and 3 of a header announce. -/
def headerPayloadLen (hdr : Octets) : Nat := ((hdr.getD 2 0).toNat <<< 8) ||| (hdr.getD 3 0).toNat

/-! ### Counter frames -/

/-- `frame_build`: the wire bytes, or `none` where the source returns -1. -/
def frameBuild (b : Backend) (type flags : UInt8) (d : Octets) (nonceCtr : UInt64) (key : Block) : Option Octets :=
  if d.length > frameMaxPayload then none
  else
    let header := frameHeader type flags d.length
    let r := aegisEncrypt b d header (nonceFromCounter nonceCtr) key
    some (header ++ r.1 ++ r.2.toList)

/-- How parsing a frame ends. Both failures are the return code -1; the second one comes after
    decryption, with what the payload buffer then holds. -/
inductive ParseOut where
  | malformed
  | rejected (d : Octets)
  | ok (f : Frame)
  deriving DecidableEq

/-- The decryption that ends both parsers, on the ciphertext and tag after a header. -/
def parseBody (b : Backend) (header rest : Octets) (payloadLen : Nat) (nonce key : Block) : ParseOut :=
  let tag := load 16 (rest.drop payloadLen)
  let r := aegisDecrypt b (rest.take payloadLen) header nonce key tag
  if r.ret ≠ 0 then .rejected r.dst else .ok ⟨header.getD 0 0, header.getD 1 0, r.dst⟩

def frameParse (b : Backend) (buf : Octets) (nonceCtr : UInt64) (key : Block) : ParseOut :=
  if buf.length < frameHeaderLen + aegisTagLen then .malformed
  else
    let payloadLen := headerPayloadLen buf
    if buf.length ≠ frameHeaderLen + payloadLen + aegisTagLen then .malformed
    else if payloadLen > frameMaxPayload then .malformed
    else parseBody b (buf.take frameHeaderLen) (buf.drop frameHeaderLen) payloadLen (nonceFromCounter nonceCtr) key

/-! ### Explicit-nonce frames -/

/-- `frame_build_explicit`; `rnd` is what `random_bytes(nonce, 8)` delivers, `none` if it fails. -/
def frameBuildExplicit (b : Backend) (type flags : UInt8) (d : Octets) (rnd : Option (Word 8)) (key : Block) :
    Option Octets :=
  if d.length > frameMaxPayload then none
  else match rnd with
    | none => none
    | some nonce =>
      let header := frameHeader type flags d.length ++ nonce.toList
      let r := aegisEncrypt b d header (load 16 nonce.toList) key
      some (header ++ r.1 ++ r.2.toList)

def frameParseExplicit (b : Backend) (buf : Octets) (key : Block) : ParseOut :=
  if buf.length < frameExplicitHeaderLen + aegisTagLen then .malformed
  else
    let payloadLen := headerPayloadLen buf
    if buf.length ≠ frameExplicitHeaderLen + payloadLen + aegisTagLen then .malformed
    else if payloadLen > frameMaxPayload then .malformed
    else
      let nonce := load 16 ((buf.drop 4).take 8)
      parseBody b (buf.take frameExplicitHeaderLen) (buf.drop frameExplicitHeaderLen) payloadLen nonce key

end AegisTunnel
