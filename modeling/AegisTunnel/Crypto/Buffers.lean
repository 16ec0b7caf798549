import AegisTunnel.Crypto.Aegis
import AegisTunnel.Lib.Memory

/-! # The streaming functions on a memory (`src/crypto/aegis.c`)

The same functions with `dst` and `src` as offsets into one memory, every read and write in the order of
the source, so that the two may be the same buffer. -/

namespace AegisTunnel
open Octets

/-! ### Blocks -/

def processEncBlockAt (S : AegisState) (dst src : Nat) (mem : Octets) : AegisState × Octets :=
  let ks := keyStream S
  if dst = src then
    -- In place: the plaintext is saved before it is overwritten.
    let pt : Block := load 16 (slice mem src 16)
    (stateUpdate128 S pt, poke mem dst (pt.xor ks).toList)
  else
    let mem := xorLoop ks dst src 16 mem
    (stateUpdate128 S (load 16 (slice mem src 16)), mem)

/-- `process_dec_block`, and the body of the block loop in `aegis_dec_final`. -/
def processDecBlockAt (S : AegisState) (dst src : Nat) (mem : Octets) : AegisState × Octets :=
  let mem := xorLoop (keyStream S) dst src 16 mem
  (stateUpdate128 S (load 16 (slice mem dst 16)), mem)

/-- The body of the block loop in `aegis_enc_final`: the state absorbs what `src` holds after `dst` is
    written. -/
def encFinalBlockAt (S : AegisState) (dst src : Nat) (mem : Octets) : AegisState × Octets :=
  let mem := xorLoop (keyStream S) dst src 16 mem
  (stateUpdate128 S (load 16 (slice mem src 16)), mem)

/-- `k` rounds of a loop over the blocks of two buffers. -/
def blockLoop (body : AegisState → Nat → Nat → Octets → AegisState × Octets) :
    Nat → AegisState → Nat → Nat → Octets → AegisState × Octets
  | 0, S, _, _, mem => (S, mem)
  | k + 1, S, dst, src, mem =>
    let r := body S dst src mem
    blockLoop body k r.1 (dst + 16) (src + 16) r.2

/-! ### The functions -/

def aegisEncUpdateAt (st : AegisState) (dst src len : Nat) (mem : Octets) : AegisState × Octets :=
  blockLoop processEncBlockAt ((len + 15) / 16) st dst src mem

def aegisDecUpdateAt (st : AegisState) (dst src len : Nat) (mem : Octets) : AegisState × Octets :=
  blockLoop processDecBlockAt ((len + 15) / 16) st dst src mem

def aegisEncFinalAt (st : AegisState) (dst src len : Nat) (mem : Octets) : Block × Octets :=
  let full := len / 16 * 16
  let r := blockLoop encFinalBlockAt (full / 16) st dst src mem
  let rem := len - full
  let t := if rem > 0 then
      let pad : Block := load 16 (slice r.2 (src + full) rem)
      let mem := xorLoop (keyStream r.1) (dst + full) (src + full) rem r.2
      (stateUpdate128 r.1 pad, mem)
    else r
  (aegisTag t.1, t.2)

/-- The return code and the memory; on mismatch the `len` bytes from `dst` on are zeroed. -/
def aegisDecFinalAt (st : AegisState) (dst src len : Nat) (tag : Block) (mem : Octets) : Int × Octets :=
  let full := len / 16 * 16
  let r := blockLoop processDecBlockAt (full / 16) st dst src mem
  let rem := len - full
  let t := if rem > 0 then
      let mem := xorLoop (keyStream r.1) (dst + full) (src + full) rem r.2
      let pad : Block := load 16 (slice mem (dst + full) rem)
      (stateUpdate128 r.1 pad, mem)
    else r
  if tagDiff (aegisTag t.1) tag ≠ 0 then (-1, poke t.2 dst (List.replicate len 0)) else (0, t.2)

/-! ### A message in chunks -/

/-- One call of an update function for each chunk length, on buffers that follow each other. -/
def chunksAt (update : AegisState → Nat → Nat → Nat → Octets → AegisState × Octets) :
    List Nat → AegisState → Nat → Nat → Octets → AegisState × Octets
  | [], st, _, _, mem => (st, mem)
  | n :: lens, st, dst, src, mem =>
    let r := update st dst src n mem
    chunksAt update lens r.1 (dst + n) (src + n) r.2

/-- The calls that encrypt a message cut into `lens` and a last chunk of `last` bytes. -/
def encryptAt (key nonce : Block) (ad : Octets) (lens : List Nat) (last dst src : Nat) (mem : Octets) : Block × Octets :=
  let r := chunksAt aegisEncUpdateAt lens (aegisAdUpdate (aegisInit key nonce) ad) dst src mem
  aegisEncFinalAt r.1 (dst + lens.sum) (src + lens.sum) last r.2

def decryptAt (key nonce : Block) (ad : Octets) (lens : List Nat) (last dst src : Nat) (tag : Block) (mem : Octets) :
    Int × Octets :=
  let r := chunksAt aegisDecUpdateAt lens (aegisAdUpdate (aegisInit key nonce) ad) dst src mem
  aegisDecFinalAt r.1 (dst + lens.sum) (src + lens.sum) last tag r.2

/-- The message `m` in one buffer, which is also the output. -/
def inPlaceEncrypt (key nonce : Block) (ad : Octets) (lens : List Nat) (last : Nat) (m : Octets) : Block × Octets :=
  encryptAt key nonce ad lens last 0 0 m

def inPlaceDecrypt (key nonce : Block) (ad : Octets) (lens : List Nat) (last : Nat) (tag : Block) (c : Octets) :
    Int × Octets :=
  decryptAt key nonce ad lens last 0 0 tag c

/-- The message `m` in one buffer and the output in another one, which holds `out` before; the output
    buffer afterwards. -/
def separateEncrypt (key nonce : Block) (ad : Octets) (lens : List Nat) (last : Nat) (m out : Octets) : Block × Octets :=
  let r := encryptAt key nonce ad lens last m.length 0 (m ++ out)
  (r.1, r.2.drop m.length)

def separateDecrypt (key nonce : Block) (ad : Octets) (lens : List Nat) (last : Nat) (tag : Block) (c out : Octets) :
    Int × Octets :=
  let r := decryptAt key nonce ad lens last c.length 0 tag (c ++ out)
  (r.1, r.2.drop c.length)

end AegisTunnel
