import AegisTunnel.Frame

/-! # Calls of the streaming functions (`src/crypto/aegis.c`, `src/crypto/aegis.h`)

What `state_update128` is fed with between `aegis_init` and the tag, call by call, and the sequences of
calls that the header allows: associated data in chunks, then the message in chunks, the last one for
the final function. Input and output are separate buffers. -/

namespace AegisTunnel
open Octets

/-! ### The blocks that are fed to the state -/

/-- The blocks of a loop over `k` full blocks. -/
def loopFed : Nat → Octets → List Block
  | 0, _ => []
  | k + 1, src => load 16 src :: loopFed k (src.drop 16)

def adUpdateFed (ad : Octets) : List Block :=
  let i := ad.length / 16 * 16
  let rem := ad.length - i
  loopFed (ad.length / 16) ad ++ if rem > 0 then [load 16 (ad.drop i)] else []

def encUpdateFed (src : Octets) : List Block := loopFed ((src.length + 15) / 16) src

def encFinalFed (src : Octets) : List Block :=
  let full := src.length / 16 * 16
  let rem := src.length - full
  loopFed (full / 16) src ++ if rem > 0 then [load 16 (src.drop full)] else []

/-- The blocks that `aegis_pure_encrypt` feeds between `aegis_init` and the tag. No length goes into the
    tag: its rounds read the state only. -/
def absorbed (ad m : Octets) : List Block :=
  let fullBlocks := m.length / 16 * 16
  (if ad.length > 0 then adUpdateFed ad else []) ++
    (if fullBlocks > 0 then encUpdateFed (m.take fullBlocks) else []) ++ encFinalFed (m.drop fullBlocks)

/-- The blocks fed while `frame_build` encrypts, where it does not return before. -/
def frameBuildFed (type flags : UInt8) (d : Octets) : Option (List Block) :=
  if d.length > frameMaxPayload then none else some (absorbed (frameHeader type flags d.length) d)

/-- The same for `frame_build_explicit` with the random nonce bytes `rnd`. -/
def frameBuildExplicitFed (type flags : UInt8) (d : Octets) (rnd : Option (Word 8)) : Option (List Block) :=
  if d.length > frameMaxPayload then none
  else rnd.map fun nonce => absorbed (frameHeader type flags d.length ++ nonce.toList) d

/-! ### Chunks -/

/-- One call of `aegis_ad_update` for each chunk. -/
def adChunks (st : AegisState) (chunks : List Octets) : AegisState := chunks.foldl aegisAdUpdate st

/-- One call of `aegis_enc_update` for each chunk; the outputs stand one after the other. -/
def encChunks : AegisState → List Octets → Octets × AegisState
  | st, [] => ([], st)
  | st, c :: cs =>
    let r := aegisEncUpdate st c
    let t := encChunks r.2 cs
    (r.1 ++ t.1, t.2)

def decChunks : AegisState → List Octets → Octets × AegisState
  | st, [] => ([], st)
  | st, c :: cs =>
    let r := aegisDecUpdate st c
    let t := decChunks r.2 cs
    (r.1 ++ t.1, t.2)

/-- The calls `aegis_init`, `aegis_ad_update`, `aegis_enc_update` for each chunk and `aegis_enc_final`. -/
def streamEncrypt (chunks : List Octets) (last ad : Octets) (nonce key : Block) : Octets × Block :=
  let st := aegisAdUpdate (aegisInit key nonce) ad
  let r := encChunks st chunks
  let f := aegisEncFinal r.2 last
  (r.1 ++ f.1, f.2)

def streamDecrypt (chunks : List Octets) (last ad : Octets) (nonce key tag : Block) : DecOut :=
  let st := aegisAdUpdate (aegisInit key nonce) ad
  let r := decChunks st chunks
  let f := aegisDecFinal r.2 last tag
  ⟨f.ret, r.1 ++ f.dst⟩

end AegisTunnel
