import AegisTunnel.Crypto.Aegis
import AegisTunnel.Lib.Aes

/-! # The accelerated ciphers (`src/crypto/x86/aegis128-x86.c`, `src/crypto/neon/aegis128-armcrypto.c`)

The two files hold one program over 128-bit vectors; they differ in the instructions of the AES round.
A vector is the block of its bytes in memory order, so loads and stores are the identity and the vector
`xor` and `and` are lane-wise. -/

namespace AegisTunnel
open Octets

/-! ### The AES round of each instruction set -/

/-- `_mm_aesenc_si128`: ShiftRows, SubBytes, MixColumns, then the round key. -/
def mmAesencSi128 (a roundKey : Block) : Block := (Aes.mixColumns (Aes.subBytes (Aes.shiftRows a))).xor roundKey

/-- `vaeseq_u8`: the round key, then ShiftRows and SubBytes. -/
def vaeseqU8 (data key : Block) : Block := Aes.subBytes (Aes.shiftRows (data.xor key))

/-- `vaesmcq_u8`: MixColumns. -/
def vaesmcqU8 (data : Block) : Block := Aes.mixColumns data

def x86AesRound (s : Block) : Block := mmAesencSi128 s (Word.zero 16)

def armcryptoAesRound (s : Block) : Block := vaesmcqU8 (vaeseqU8 s (Word.zero 16))

/-! ### The program over vectors -/

section Vector
variable (aesRound : Block → Block)

def vecStateUpdate128 (S : AegisState) (m : Block) : AegisState :=
  let r0 := aesRound S.s4
  let r1 := aesRound S.s0
  let r2 := aesRound S.s1
  let r3 := aesRound S.s2
  let r4 := aesRound S.s3
  ⟨(r0.xor S.s0).xor m, r1.xor S.s1, r2.xor S.s2, r3.xor S.s3, r4.xor S.s4⟩

def vecKeyStream (S : AegisState) : Block := (S.s1.xor S.s4).xor (S.s2.and S.s3)

def vecInit (key nonce : Block) : AegisState :=
  let kn := key.xor nonce
  (List.range 10).foldl (fun S i => vecStateUpdate128 aesRound S (if i % 2 = 0 then kn else key)) ⟨kn, c1, c0, key, kn⟩

def vecAdLoop : Nat → AegisState → Octets → AegisState
  | 0, S, _ => S
  | k + 1, S, ad => vecAdLoop k (vecStateUpdate128 aesRound S (load 16 ad)) (ad.drop 16)

def vecAdUpdate (st : AegisState) (ad : Octets) : AegisState :=
  let i := ad.length / 16 * 16
  let S := vecAdLoop aesRound (ad.length / 16) st ad
  if ad.length - i > 0 then vecStateUpdate128 aesRound S (load 16 (ad.drop i)) else S

/-- `k` rounds of the block loop of `_enc_update` and `_enc_final`. -/
def vecEncBlocks : Nat → AegisState → Octets → Octets × AegisState
  | 0, S, _ => ([], S)
  | k + 1, S, src =>
    let ks := vecKeyStream S
    let pt := load 16 src
    let ct := pt.xor ks
    let r := vecEncBlocks k (vecStateUpdate128 aesRound S pt) (src.drop 16)
    (ct.toList ++ r.1, r.2)

def vecDecBlocks : Nat → AegisState → Octets → Octets × AegisState
  | 0, S, _ => ([], S)
  | k + 1, S, src =>
    let ks := vecKeyStream S
    let ct := load 16 src
    let pt := ct.xor ks
    let r := vecDecBlocks k (vecStateUpdate128 aesRound S pt) (src.drop 16)
    (pt.toList ++ r.1, r.2)

def vecTagRounds : Nat → AegisState → Block → Block
  | 0, _, tmp => tmp
  | k + 1, S, tmp =>
    let S' := vecStateUpdate128 aesRound S tmp
    vecTagRounds k S' ((((S'.s0.xor S'.s1).xor S'.s2).xor S'.s3).xor S'.s4)

def vecTag (S : AegisState) : Block :=
  vecTagRounds aesRound 7 S ((((S.s0.xor S.s1).xor S.s2).xor S.s3).xor S.s4)

/-- The rest is encrypted as a whole vector and its first bytes are kept. -/
def vecEncFinal (st : AegisState) (src : Octets) : Octets × Block :=
  let full := src.length / 16 * 16
  let r := vecEncBlocks aesRound (full / 16) st src
  let rem := src.length - full
  let t := if rem > 0 then
      let pt := load 16 (src.drop full)
      let ct := pt.xor (vecKeyStream r.2)
      (ct.toList.take rem, vecStateUpdate128 aesRound r.2 pt)
    else ([], r.2)
  (r.1 ++ t.1, vecTag aesRound t.2)

/-- The rest is decrypted as a whole vector; its first bytes are kept and padded again. -/
def vecDecFinal (st : AegisState) (src : Octets) (tag : Block) : DecOut :=
  let full := src.length / 16 * 16
  let r := vecDecBlocks aesRound (full / 16) st src
  let rem := src.length - full
  let t := if rem > 0 then
      let ct := load 16 (src.drop full)
      let pt := ct.xor (vecKeyStream r.2)
      let dst := pt.toList.take rem
      (dst, vecStateUpdate128 aesRound r.2 (load 16 dst))
    else ([], r.2)
  let expectedTag := vecTag aesRound t.2
  if tagDiff expectedTag tag ≠ 0 then ⟨-1, List.replicate src.length 0⟩ else ⟨0, r.1 ++ t.1⟩

def vecEncrypt (m ad : Octets) (nonce key : Block) : Octets × Block :=
  let st := vecInit aesRound key nonce
  let st := if ad.length > 0 then vecAdUpdate aesRound st ad else st
  let full := m.length / 16 * 16
  let r := if full > 0 then vecEncBlocks aesRound (full / 16) st (m.take full) else ([], st)
  let f := vecEncFinal aesRound r.2 (m.drop full)
  (r.1 ++ f.1, f.2)

def vecDecrypt (c ad : Octets) (nonce key tag : Block) : DecOut :=
  let st := vecInit aesRound key nonce
  let st := if ad.length > 0 then vecAdUpdate aesRound st ad else st
  let full := c.length / 16 * 16
  let r := if full > 0 then vecDecBlocks aesRound (full / 16) st (c.take full) else ([], st)
  let f := vecDecFinal aesRound r.2 (c.drop full) tag
  ⟨f.ret, r.1 ++ f.dst⟩

end Vector

def aegis128X86Encrypt : Octets → Octets → Block → Block → Octets × Block := vecEncrypt x86AesRound

def aegis128X86Decrypt : Octets → Octets → Block → Block → Block → DecOut := vecDecrypt x86AesRound

def aegis128ArmcryptoEncrypt : Octets → Octets → Block → Block → Octets × Block := vecEncrypt armcryptoAesRound

def aegis128ArmcryptoDecrypt : Octets → Octets → Block → Block → Block → DecOut := vecDecrypt armcryptoAesRound

/-! ### Dispatch -/

/-- The pair of functions that `g_encrypt` and `g_decrypt` point to after `aegis_crypto_init`. -/
inductive Backend where
  | pureC
  | x86
  | armcrypto
  deriving DecidableEq

def aegisEncrypt : Backend → Octets → Octets → Block → Block → Octets × Block
  | .pureC => aegisPureEncrypt
  | .x86 => aegis128X86Encrypt
  | .armcrypto => aegis128ArmcryptoEncrypt

def aegisDecrypt : Backend → Octets → Octets → Block → Block → Block → DecOut
  | .pureC => aegisPureDecrypt
  | .x86 => aegis128X86Decrypt
  | .armcrypto => aegis128ArmcryptoDecrypt

end AegisTunnel
