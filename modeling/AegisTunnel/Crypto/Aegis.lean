import AegisTunnel.Lib.Duplex

/-! # The pure C cipher (`src/crypto/aegis.c`)

AEGIS-128 as the file computes it: the AES building blocks, the state update, the streaming functions
and the one-shot functions on top of them. A buffer is the list of octets it holds; a loop over the
blocks of a buffer counts the blocks. -/

namespace AegisTunnel
open Octets

/-- A 16-byte block; keys, nonces and tags are blocks too. -/
abbrev Block := Word 16

/-! ### AES building blocks -/

def aesSbox : Octets :=
  [0x63, 0x7c, 0x77, 0x7b, 0xf2, 0x6b, 0x6f, 0xc5, 0x30, 0x01, 0x67, 0x2b, 0xfe, 0xd7, 0xab, 0x76,
   0xca, 0x82, 0xc9, 0x7d, 0xfa, 0x59, 0x47, 0xf0, 0xad, 0xd4, 0xa2, 0xaf, 0x9c, 0xa4, 0x72, 0xc0,
   0xb7, 0xfd, 0x93, 0x26, 0x36, 0x3f, 0xf7, 0xcc, 0x34, 0xa5, 0xe5, 0xf1, 0x71, 0xd8, 0x31, 0x15,
   0x04, 0xc7, 0x23, 0xc3, 0x18, 0x96, 0x05, 0x9a, 0x07, 0x12, 0x80, 0xe2, 0xeb, 0x27, 0xb2, 0x75,
   0x09, 0x83, 0x2c, 0x1a, 0x1b, 0x6e, 0x5a, 0xa0, 0x52, 0x3b, 0xd6, 0xb3, 0x29, 0xe3, 0x2f, 0x84,
   0x53, 0xd1, 0x00, 0xed, 0x20, 0xfc, 0xb1, 0x5b, 0x6a, 0xcb, 0xbe, 0x39, 0x4a, 0x4c, 0x58, 0xcf,
   0xd0, 0xef, 0xaa, 0xfb, 0x43, 0x4d, 0x33, 0x85, 0x45, 0xf9, 0x02, 0x7f, 0x50, 0x3c, 0x9f, 0xa8,
   0x51, 0xa3, 0x40, 0x8f, 0x92, 0x9d, 0x38, 0xf5, 0xbc, 0xb6, 0xda, 0x21, 0x10, 0xff, 0xf3, 0xd2,
   0xcd, 0x0c, 0x13, 0xec, 0x5f, 0x97, 0x44, 0x17, 0xc4, 0xa7, 0x7e, 0x3d, 0x64, 0x5d, 0x19, 0x73,
   0x60, 0x81, 0x4f, 0xdc, 0x22, 0x2a, 0x90, 0x88, 0x46, 0xee, 0xb8, 0x14, 0xde, 0x5e, 0x0b, 0xdb,
   0xe0, 0x32, 0x3a, 0x0a, 0x49, 0x06, 0x24, 0x5c, 0xc2, 0xd3, 0xac, 0x62, 0x91, 0x95, 0xe4, 0x79,
   0xe7, 0xc8, 0x37, 0x6d, 0x8d, 0xd5, 0x4e, 0xa9, 0x6c, 0x56, 0xf4, 0xea, 0x65, 0x7a, 0xae, 0x08,
   0xba, 0x78, 0x25, 0x2e, 0x1c, 0xa6, 0xb4, 0xc6, 0xe8, 0xdd, 0x74, 0x1f, 0x4b, 0xbd, 0x8b, 0x8a,
   0x70, 0x3e, 0xb5, 0x66, 0x48, 0x03, 0xf6, 0x0e, 0x61, 0x35, 0x57, 0xb9, 0x86, 0xc1, 0x1d, 0x9e,
   0xe1, 0xf8, 0x98, 0x11, 0x69, 0xd9, 0x8e, 0x94, 0x9b, 0x1e, 0x87, 0xe9, 0xce, 0x55, 0x28, 0xdf,
   0x8c, 0xa1, 0x89, 0x0d, 0xbf, 0xe6, 0x42, 0x68, 0x41, 0x99, 0x2d, 0x0f, 0xb0, 0x54, 0xbb, 0x16]

/-- Multiply by 2 in GF(2^8) with reduction polynomial x^8+x^4+x^3+x+1. -/
def xtime (x : UInt8) : UInt8 := (x <<< 1) ^^^ (((x >>> 7) &&& 1) * 0x1b)

def mul3 (x : UInt8) : UInt8 := xtime x ^^^ x

def aesSubBytes (block : Block) : Block := block.map fun x => aesSbox.getD x.toNat 0

/-- Output byte `i` comes from input byte `srPerm[i]`. -/
def srPerm : List.Vector (Fin 16) 16 :=
  ⟨[0, 5, 10, 15, 4, 9, 14, 3, 8, 13, 2, 7, 12, 1, 6, 11], rfl⟩

def aesShiftRows (block : Block) : Block := srPerm.map block.get

def mixColumn (a0 a1 a2 a3 : UInt8) : Word 4 :=
  ⟨[xtime a0 ^^^ mul3 a1 ^^^ a2 ^^^ a3, a0 ^^^ xtime a1 ^^^ mul3 a2 ^^^ a3,
    a0 ^^^ a1 ^^^ xtime a2 ^^^ mul3 a3, mul3 a0 ^^^ a1 ^^^ a2 ^^^ xtime a3], rfl⟩

def aesMixColumns (block : Block) : Block :=
  ⟨(mixColumn (block.get 0) (block.get 1) (block.get 2) (block.get 3)).toList ++
    (mixColumn (block.get 4) (block.get 5) (block.get 6) (block.get 7)).toList ++
    (mixColumn (block.get 8) (block.get 9) (block.get 10) (block.get 11)).toList ++
    (mixColumn (block.get 12) (block.get 13) (block.get 14) (block.get 15)).toList, rfl⟩

def aesRound (block : Block) : Block := aesMixColumns (aesShiftRows (aesSubBytes block))

def xor5Blocks (a b c d e : Block) : Block := (((a.xor b).xor c).xor d).xor e

/-! ### The state -/

/-- `aegis_state_t`: the five words `S[0] .. S[4]`. -/
structure AegisState where
  s0 : Block
  s1 : Block
  s2 : Block
  s3 : Block
  s4 : Block
  deriving DecidableEq

/-- `State_Update128(S, m)`; every round reads the old words. -/
def stateUpdate128 (S : AegisState) (m : Block) : AegisState where
  s0 := ((aesRound S.s4).xor S.s0).xor m
  s1 := (aesRound S.s0).xor S.s1
  s2 := (aesRound S.s1).xor S.s2
  s3 := (aesRound S.s2).xor S.s3
  s4 := (aesRound S.s3).xor S.s4

def c0 : Block :=
  ⟨[0x00, 0x01, 0x01, 0x02, 0x03, 0x05, 0x08, 0x0d, 0x15, 0x22, 0x33, 0x59, 0x90, 0xe9, 0x62, 0x62], rfl⟩

def c1 : Block :=
  ⟨[0xdb, 0x3d, 0x18, 0x55, 0x6d, 0xc2, 0x2f, 0xf1, 0x20, 0x11, 0x31, 0x42, 0x73, 0xb5, 0x28, 0xdd], rfl⟩

def keyStream (S : AegisState) : Block := (S.s1.xor S.s4).xor (S.s2.and S.s3)

/-- One full block in the encrypt direction: the ciphertext block and the next state. The in-place
    branch of the source saves the plaintext first and computes the same values. -/
def processEncBlock (S : AegisState) (src : Block) : Block × AegisState :=
  (src.xor (keyStream S), stateUpdate128 S src)

def processDecBlock (S : AegisState) (src : Block) : Block × AegisState :=
  let dst := src.xor (keyStream S)
  (dst, stateUpdate128 S dst)

/-! ### Streaming functions -/

def aegisInit (key nonce : Block) : AegisState :=
  let kn := key.xor nonce
  (List.range 10).foldl (fun S i => stateUpdate128 S (if i % 2 = 0 then kn else key)) ⟨kn, c1, c0, key, kn⟩

def adLoop : Nat → AegisState → Octets → AegisState
  | 0, S, _ => S
  | k + 1, S, ad => adLoop k (stateUpdate128 S (load 16 ad)) (ad.drop 16)

/-- Full blocks, then a last partial block padded with zeros. -/
def aegisAdUpdate (st : AegisState) (ad : Octets) : AegisState :=
  let i := ad.length / 16 * 16
  let S := adLoop (ad.length / 16) st ad
  let rem := ad.length - i
  if rem > 0 then stateUpdate128 S (load 16 (ad.drop i)) else S

/-- `k` rounds of a block loop in the encrypt direction. -/
def encBlocks : Nat → AegisState → Octets → Octets × AegisState
  | 0, S, _ => ([], S)
  | k + 1, S, src =>
    let b := processEncBlock S (load 16 src)
    let r := encBlocks k b.2 (src.drop 16)
    (b.1.toList ++ r.1, r.2)

def decBlocks : Nat → AegisState → Octets → Octets × AegisState
  | 0, S, _ => ([], S)
  | k + 1, S, src =>
    let b := processDecBlock S (load 16 src)
    let r := decBlocks k b.2 (src.drop 16)
    (b.1.toList ++ r.1, r.2)

/-- Encrypt `src`, whose length the caller keeps a multiple of 16. -/
def aegisEncUpdate (st : AegisState) (src : Octets) : Octets × AegisState :=
  encBlocks ((src.length + 15) / 16) st src

def aegisDecUpdate (st : AegisState) (src : Octets) : Octets × AegisState :=
  decBlocks ((src.length + 15) / 16) st src

/-- `k` further rounds of tag generation from the state `S` and the block `tmp`. -/
def tagRounds : Nat → AegisState → Block → Block
  | 0, _, tmp => tmp
  | k + 1, S, tmp =>
    let S' := stateUpdate128 S tmp
    tagRounds k S' (xor5Blocks S'.s0 S'.s1 S'.s2 S'.s3 S'.s4)

def aegisTag (S : AegisState) : Block := tagRounds 7 S (xor5Blocks S.s0 S.s1 S.s2 S.s3 S.s4)

/-- The remaining data in the encrypt direction: full blocks, then the zero-padded rest; and the tag. -/
def aegisEncFinal (st : AegisState) (src : Octets) : Octets × Block :=
  let full := src.length / 16 * 16
  let r := encBlocks (full / 16) st src
  let rem := src.length - full
  let t := if rem > 0 then
      (mask (src.drop full) (keyStream r.2), stateUpdate128 r.2 (load 16 (src.drop full)))
    else ([], r.2)
  (r.1 ++ t.1, aegisTag t.2)

/-- The return code of a decryption and what its output buffer holds afterwards. -/
structure DecOut where
  ret : Int
  dst : Octets
  deriving DecidableEq

/-- Bitwise OR of the XORs of the two tags; no early exit. -/
def tagDiff (expectedTag tag : Block) : UInt8 :=
  (expectedTag.toList.zip tag.toList).foldl (fun diff p => diff ||| (p.1 ^^^ p.2)) 0

/-- The remaining data in the decrypt direction, then the tag check. On mismatch the function zeroes
    its own output, the `src.length` bytes from its `dst` on. -/
def aegisDecFinal (st : AegisState) (src : Octets) (tag : Block) : DecOut :=
  let full := src.length / 16 * 16
  let r := decBlocks (full / 16) st src
  let rem := src.length - full
  let t := if rem > 0 then
      let dst := mask (src.drop full) (keyStream r.2)
      (dst, stateUpdate128 r.2 (load 16 dst))
    else ([], r.2)
  let expectedTag := aegisTag t.2
  if tagDiff expectedTag tag ≠ 0 then ⟨-1, List.replicate src.length 0⟩ else ⟨0, r.1 ++ t.1⟩

/-! ### One-shot functions -/

def aegisPureEncrypt (m ad : Octets) (nonce key : Block) : Octets × Block :=
  let st := aegisInit key nonce
  let st := if ad.length > 0 then aegisAdUpdate st ad else st
  let fullBlocks := m.length / 16 * 16
  let r := if fullBlocks > 0 then aegisEncUpdate st (m.take fullBlocks) else ([], st)
  let f := aegisEncFinal r.2 (m.drop fullBlocks)
  (r.1 ++ f.1, f.2)

/-- The two parts write to `m` and to `m + full_blocks`, so the buffer holds both. -/
def aegisPureDecrypt (c ad : Octets) (nonce key tag : Block) : DecOut :=
  let st := aegisInit key nonce
  let st := if ad.length > 0 then aegisAdUpdate st ad else st
  let fullBlocks := c.length / 16 * 16
  let r := if fullBlocks > 0 then aegisDecUpdate st (c.take fullBlocks) else ([], st)
  let f := aegisDecFinal r.2 (c.drop fullBlocks) tag
  ⟨f.ret, r.1 ++ f.dst⟩

end AegisTunnel
