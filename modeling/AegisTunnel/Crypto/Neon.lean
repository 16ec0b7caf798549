import AegisTunnel.Crypto.Streaming

/-! # The plain NEON cipher (`src/crypto/neon/aegis128-plain.c`)

The streaming functions over 128-bit vectors without AES instructions. A vector is the block of its
lanes. A buffer is the list of the `len` octets that the caller hands over, and a call that would read or
write past it, or past one of the 16-byte arrays of the function itself, is `none`. The S-box, the
permutation of ShiftRows and the constants are those of `aegis.c`. -/

namespace AegisTunnel
open Octets

/-! ### Intrinsics -/

def vdupqNU8 (x : UInt8) : Block := List.Vector.replicate 16 x

def vshrqNU8 (a : Block) (n : UInt8) : Block := a.map (· >>> n)

/-- Lane-wise difference, mod 256. -/
def vsubqU8 (a b : Block) : Block := List.Vector.zipWith (· - ·) a b

/-- All ones where the lanes are equal, zero elsewhere. -/
def vceqqU8 (a b : Block) : Block := List.Vector.zipWith (fun x y => if x = y then 0xff else 0) a b

def vorrqU8 (a b : Block) : Block := List.Vector.zipWith (· ||| ·) a b

def vmvnqU8 (a : Block) : Block := a.map (~~~ ·)

def vandqU8 (a b : Block) : Block := Word.and a b

def veorqU8 (a b : Block) : Block := Word.xor a b

/-- Bits of `a` where the mask is set and bits of `b` elsewhere. -/
def vbslqU8 (mask a b : Block) : Block := vorrqU8 (vandqU8 mask a) (vandqU8 (vmvnqU8 mask) b)

/-- A look-up of each lane in the 16 octets of `a`; 0 for indices from 16 on. -/
def vqtbl1qU8 (a idx : Block) : Block := idx.map fun i => a.toList.getD i.toNat 0

/-- A look-up of each lane in the 64 octets of four vectors; 0 for indices from 64 on. -/
def vqtbl4qU8 (tbl : List.Vector Block 4) (idx : Block) : Block :=
  idx.map fun i => (tbl.toList.flatMap (·.toList)).getD i.toNat 0

/-- Sixteen octets from memory. -/
def vld1qU8 (p : Octets) : Option Block := if 16 ≤ p.length then some (load 16 p) else none

/-- `memcpy` of a whole buffer into a 16-byte array of zeros. -/
def memcpyPad (src : Octets) : Option Block := if src.length ≤ 16 then some (load 16 src) else none

/-! ### AES building blocks -/

/-- The 64 octets of the S-box from `off` on. -/
def sboxQuad (off : Nat) : List.Vector Block 4 :=
  ⟨[load 16 (aesSbox.drop off), load 16 (aesSbox.drop (off + 16)), load 16 (aesSbox.drop (off + 32)),
    load 16 (aesSbox.drop (off + 48))], rfl⟩

def aesSubBytesNeon (state : Block) : Block :=
  let hi2 := vshrqNU8 state 6
  let r0 := vqtbl4qU8 (sboxQuad 0) state
  let r1 := vqtbl4qU8 (sboxQuad 64) (vsubqU8 state (vdupqNU8 64))
  let r2 := vqtbl4qU8 (sboxQuad 128) (vsubqU8 state (vdupqNU8 128))
  let r3 := vqtbl4qU8 (sboxQuad 192) (vsubqU8 state (vdupqNU8 192))
  let mask0 := vceqqU8 hi2 (vdupqNU8 0)
  let mask1 := vceqqU8 hi2 (vdupqNU8 1)
  let mask2 := vceqqU8 hi2 (vdupqNU8 2)
  let result := r0
  let result := vbslqU8 mask1 r1 result
  let result := vbslqU8 mask2 r2 result
  let mask3 := vmvnqU8 (vorrqU8 (vorrqU8 mask0 mask1) mask2)
  vbslqU8 mask3 r3 result

def aesShiftRowsNeon (state : Block) : Block :=
  vqtbl1qU8 state (srPerm.map fun i => UInt8.ofNat i.val)

def xtimeNeon (a : UInt8) : UInt8 := (a <<< 1) ^^^ ((a >>> 7) * 0x1b)

def mixColumnNeon (a0 a1 a2 a3 : UInt8) : Word 4 :=
  let x0 := xtimeNeon a0
  let x1 := xtimeNeon a1
  let x2 := xtimeNeon a2
  let x3 := xtimeNeon a3
  ⟨[x0 ^^^ (x1 ^^^ a1) ^^^ a2 ^^^ a3, a0 ^^^ x1 ^^^ (x2 ^^^ a2) ^^^ a3,
    a0 ^^^ a1 ^^^ x2 ^^^ (x3 ^^^ a3), (x0 ^^^ a0) ^^^ a1 ^^^ a2 ^^^ x3], rfl⟩

/-- A round of the scalar loop over the columns. -/
def columnNeon (input : Octets) (c : Nat) : Word 4 :=
  let i := c * 4
  mixColumnNeon (input.getD i 0) (input.getD (i + 1) 0) (input.getD (i + 2) 0) (input.getD (i + 3) 0)

/-- `aes_mix_columns_neon`; the vectors that it computes before the loop are not used. -/
def aesMixColumnsNeon (state : Block) : Block :=
  let input := state.toList
  ⟨(columnNeon input 0).toList ++ (columnNeon input 1).toList ++ (columnNeon input 2).toList ++
    (columnNeon input 3).toList, rfl⟩

def aesRoundNeon (state : Block) : Block := aesMixColumnsNeon (aesShiftRowsNeon (aesSubBytesNeon state))

/-! ### The state -/

def stateUpdate128Neon (S : AegisState) (m : Block) : AegisState where
  s0 := veorqU8 (veorqU8 (aesRoundNeon S.s4) S.s0) m
  s1 := veorqU8 (aesRoundNeon S.s0) S.s1
  s2 := veorqU8 (aesRoundNeon S.s1) S.s2
  s3 := veorqU8 (aesRoundNeon S.s2) S.s3
  s4 := veorqU8 (aesRoundNeon S.s3) S.s4

def keyStreamNeon (S : AegisState) : Block := veorqU8 (veorqU8 S.s1 S.s4) (vandqU8 S.s2 S.s3)

/-! ### Streaming functions -/

def aegis128NeonInit (key nonce : Block) : AegisState :=
  let kn := veorqU8 key nonce
  (List.range 10).foldl (fun S i => stateUpdate128Neon S (if i % 2 = 0 then kn else key)) ⟨kn, c1, c0, key, kn⟩

def neonAdLoop : Nat → AegisState → Octets → Option AegisState
  | 0, S, _ => some S
  | k + 1, S, ad => do
    let m ← vld1qU8 ad
    neonAdLoop k (stateUpdate128Neon S m) (ad.drop 16)

def aegis128NeonAdUpdate (st : AegisState) (ad : Octets) : Option AegisState := do
  let i := ad.length / 16 * 16
  let S ← neonAdLoop (ad.length / 16) st ad
  let rem := ad.length - i
  if rem > 0 then
    let pad ← memcpyPad (ad.drop i)
    some (stateUpdate128Neon S pad)
  else some S

def neonEncBlocks : Nat → AegisState → Octets → Option (Octets × AegisState)
  | 0, S, _ => some ([], S)
  | k + 1, S, src => do
    let ks := keyStreamNeon S
    let pt ← vld1qU8 src
    let ct := veorqU8 pt ks
    let r ← neonEncBlocks k (stateUpdate128Neon S pt) (src.drop 16)
    some (ct.toList ++ r.1, r.2)

def neonDecBlocks : Nat → AegisState → Octets → Option (Octets × AegisState)
  | 0, S, _ => some ([], S)
  | k + 1, S, src => do
    let ks := keyStreamNeon S
    let ct ← vld1qU8 src
    let pt := veorqU8 ct ks
    let r ← neonDecBlocks k (stateUpdate128Neon S pt) (src.drop 16)
    some (pt.toList ++ r.1, r.2)

def aegis128NeonEncUpdate (st : AegisState) (src : Octets) : Option (Octets × AegisState) :=
  neonEncBlocks ((src.length + 15) / 16) st src

def aegis128NeonDecUpdate (st : AegisState) (src : Octets) : Option (Octets × AegisState) :=
  neonDecBlocks ((src.length + 15) / 16) st src

def neonXor5 (S : AegisState) : Block :=
  veorqU8 (veorqU8 (veorqU8 S.s0 S.s1) (veorqU8 S.s2 S.s3)) S.s4

def neonTagRounds : Nat → AegisState → Block → Block
  | 0, _, tmp => tmp
  | k + 1, S, tmp =>
    let S' := stateUpdate128Neon S tmp
    neonTagRounds k S' (neonXor5 S')

def neonTag (S : AegisState) : Block := neonTagRounds 7 S (neonXor5 S)

/-- The whole last chunk goes through one 16-byte array. -/
def aegis128NeonEncFinal (st : AegisState) (src : Octets) : Option (Octets × Block) := do
  let t ← if src.length > 0 then do
      let pt ← memcpyPad src
      let ct := veorqU8 pt (keyStreamNeon st)
      some (ct.toList.take src.length, stateUpdate128Neon st pt)
    else some ([], st)
  some (t.1, neonTag t.2)

/-- The first load reads sixteen octets of `src`, whatever `len` is; its result is replaced by the padded
    copy. -/
def aegis128NeonDecFinal (st : AegisState) (src : Octets) (tag : Block) : Option DecOut := do
  let t ← if src.length > 0 then do
      let _ ← vld1qU8 src
      let ct ← memcpyPad src
      let pt := veorqU8 ct (keyStreamNeon st)
      let dst := pt.toList.take src.length
      let pad ← memcpyPad dst
      some (dst, stateUpdate128Neon st pad)
    else some ([], st)
  some (if tagDiff (neonTag t.2) tag ≠ 0 then ⟨-1, List.replicate src.length 0⟩ else ⟨0, t.1⟩)

/-! ### Sequences of calls -/

def neonAdChunks (st : AegisState) (chunks : List Octets) : Option AegisState := chunks.foldlM aegis128NeonAdUpdate st

def neonEncChunks : AegisState → List Octets → Option (Octets × AegisState)
  | st, [] => some ([], st)
  | st, c :: cs => do
    let r ← aegis128NeonEncUpdate st c
    let t ← neonEncChunks r.2 cs
    some (r.1 ++ t.1, t.2)

def neonDecChunks : AegisState → List Octets → Option (Octets × AegisState)
  | st, [] => some ([], st)
  | st, c :: cs => do
    let r ← aegis128NeonDecUpdate st c
    let t ← neonDecChunks r.2 cs
    some (r.1 ++ t.1, t.2)

/-- The calls for associated data in chunks, a message in chunks and a last chunk. -/
def neonCallsEncrypt (ads chunks : List Octets) (last : Octets) (nonce key : Block) : Option (Octets × Block) := do
  let st ← neonAdChunks (aegis128NeonInit key nonce) ads
  let r ← neonEncChunks st chunks
  let f ← aegis128NeonEncFinal r.2 last
  some (r.1 ++ f.1, f.2)

def neonCallsDecrypt (ads chunks : List Octets) (last : Octets) (nonce key tag : Block) : Option DecOut := do
  let st ← neonAdChunks (aegis128NeonInit key nonce) ads
  let r ← neonDecChunks st chunks
  let f ← aegis128NeonDecFinal r.2 last tag
  some ⟨f.ret, r.1 ++ f.dst⟩

/-- The same calls of the pure C functions. -/
def callsEncrypt (ads chunks : List Octets) (last : Octets) (nonce key : Block) : Octets × Block :=
  let st := adChunks (aegisInit key nonce) ads
  let r := encChunks st chunks
  let f := aegisEncFinal r.2 last
  (r.1 ++ f.1, f.2)

def callsDecrypt (ads chunks : List Octets) (last : Octets) (nonce key tag : Block) : DecOut :=
  let st := adChunks (aegisInit key nonce) ads
  let r := decChunks st chunks
  let f := aegisDecFinal r.2 last tag
  ⟨f.ret, r.1 ++ f.dst⟩

end AegisTunnel
