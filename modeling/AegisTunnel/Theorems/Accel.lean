import AegisTunnel.Crypto.Accel
import AegisTunnel.Theorems.Aegis

/-! The accelerated ciphers compute what the pure C cipher computes, so every peer can use its own
    backend. -/

namespace AegisTunnel
open Octets

/-! ### The AES rounds -/

/-- The table of `aegis.c` is the S-box. -/
theorem aesSbox_eq : aesSbox = Aes.sBoxes := by decide +kernel

theorem ofNat_double (x : UInt8) : UInt8.ofNat (Aes.double x.toNat) = xtime x := by
  have each : ∀ i : Fin 256, UInt8.ofNat (Aes.double i) = xtime (.ofFin i) := by decide +kernel
  exact each x.toFin

theorem times_one (x : UInt8) : Aes.times 1 x = x := by
  simp [Aes.times, Aes.mul, Aes.mulLow]

theorem times_two (x : UInt8) : Aes.times 2 x = xtime x := by
  simp [Aes.times, Aes.mul, Aes.mulLow, ofNat_double]

theorem times_three (x : UInt8) : Aes.times 3 x = mul3 x := by
  simp [Aes.times, Aes.mul, Aes.mulLow, ofNat_double, mul3, UInt8.xor_comm]

theorem aesSubBytes_eq (s : Block) : aesSubBytes s = Aes.subBytes s := by
  rw [aesSubBytes, aesSbox_eq]
  rfl

theorem aesShiftRows_eq (s : Block) : aesShiftRows s = Aes.shiftRows s := by
  have moved : ∀ i : Fin 16, srPerm.get i = ⟨i % 4 % 4 + 4 * ((i / 4 + i % 4) % 4), by omega⟩ := by decide
  refine List.Vector.ext fun i => ?_
  rw [aesShiftRows, List.Vector.get_map, moved, Aes.shiftRows, Aes.ofEntries, List.Vector.get_ofFn, Aes.entry]

theorem mixColumn_eq (a0 a1 a2 a3 : UInt8) : (mixColumn a0 a1 a2 a3).toList = (List.range 4).map fun r =>
    Aes.times (Aes.mixMatrix r 0) a0 ^^^ Aes.times (Aes.mixMatrix r 1) a1 ^^^ Aes.times (Aes.mixMatrix r 2) a2 ^^^
      Aes.times (Aes.mixMatrix r 3) a3 := by
  simp [mixColumn, List.range, List.range.loop, Aes.mixMatrix, times_one, times_two, times_three]

theorem aesMixColumns_eq (s : Block) : aesMixColumns s = Aes.mixColumns s := by
  refine List.Vector.eq _ _ ?_
  simp only [aesMixColumns, mixColumn_eq]
  rfl

theorem subBytes_shiftRows (s : Block) : Aes.subBytes (Aes.shiftRows s) = Aes.shiftRows (Aes.subBytes s) := by
  simp only [← aesSubBytes_eq, ← aesShiftRows_eq]
  refine List.Vector.ext fun i => ?_
  simp [aesSubBytes, aesShiftRows]

theorem aesRound_eq (s : Block) : aesRound s = Aes.mixColumns (Aes.subBytes (Aes.shiftRows s)) := by
  rw [aesRound, aesMixColumns_eq, aesShiftRows_eq, aesSubBytes_eq, subBytes_shiftRows]

theorem x86AesRound_eq : x86AesRound = aesRound := by
  funext s
  rw [x86AesRound, mmAesencSi128, Word.xor_zero, aesRound_eq]

theorem armcryptoAesRound_eq : armcryptoAesRound = aesRound := by
  funext s
  rw [armcryptoAesRound, vaesmcqU8, vaeseqU8, Word.xor_zero, aesRound_eq]

/-! ### The program over vectors -/

theorem vecStateUpdate128_eq : vecStateUpdate128 aesRound = stateUpdate128 := rfl

theorem vecKeyStream_eq : vecKeyStream = keyStream := rfl

theorem vecInit_eq : vecInit aesRound = aegisInit := rfl

theorem vecAdLoop_eq (k : Nat) (S : AegisState) (ad : Octets) : vecAdLoop aesRound k S ad = adLoop k S ad := by
  induction k generalizing S ad with
  | zero => rfl
  | succ k ih => rw [vecAdLoop, ih, adLoop, vecStateUpdate128_eq]

theorem vecAdUpdate_eq (st : AegisState) (ad : Octets) : vecAdUpdate aesRound st ad = aegisAdUpdate st ad := by
  simp only [vecAdUpdate, aegisAdUpdate, vecAdLoop_eq, vecStateUpdate128_eq]

theorem vecEncBlocks_eq (k : Nat) (S : AegisState) (src : Octets) :
    vecEncBlocks aesRound k S src = encBlocks k S src := by
  induction k generalizing S src with
  | zero => rfl
  | succ k ih => simp only [vecEncBlocks, encBlocks, processEncBlock, vecStateUpdate128_eq, vecKeyStream_eq, ih]

theorem vecDecBlocks_eq (k : Nat) (S : AegisState) (src : Octets) :
    vecDecBlocks aesRound k S src = decBlocks k S src := by
  induction k generalizing S src with
  | zero => rfl
  | succ k ih => simp only [vecDecBlocks, decBlocks, processDecBlock, vecStateUpdate128_eq, vecKeyStream_eq, ih]

theorem vecTagRounds_eq (k : Nat) (S : AegisState) (tmp : Block) :
    vecTagRounds aesRound k S tmp = tagRounds k S tmp := by
  induction k generalizing S tmp with
  | zero => rfl
  | succ k ih => rw [vecTagRounds, ih, tagRounds, vecStateUpdate128_eq, xor5Blocks]

theorem vecTag_eq (S : AegisState) : vecTag aesRound S = aegisTag S := by
  rw [vecTag, vecTagRounds_eq, aegisTag, xor5Blocks]

/-- Encrypting the padded vector and keeping `rem` bytes is encrypting the rest byte by byte. -/
theorem take_xor_rest (src : Octets) (ks : Block) :
    (((load 16 (src.drop (src.length / 16 * 16))).xor ks).toList).take (src.length - src.length / 16 * 16) =
      mask (src.drop (src.length / 16 * 16)) ks := by
  have h := take_toList_xor_load ks (Duplex.length_rest (n := 16) (by decide) src).le
  rwa [List.length_drop] at h

theorem vecEncFinal_eq (st : AegisState) (src : Octets) : vecEncFinal aesRound st src = aegisEncFinal st src := by
  simp only [vecEncFinal, aegisEncFinal, vecEncBlocks_eq, vecStateUpdate128_eq, vecKeyStream_eq, vecTag_eq,
    take_xor_rest]

theorem vecDecFinal_eq (st : AegisState) (src : Octets) (tag : Block) :
    vecDecFinal aesRound st src tag = aegisDecFinal st src tag := by
  simp only [vecDecFinal, aegisDecFinal, vecDecBlocks_eq, vecStateUpdate128_eq, vecKeyStream_eq, vecTag_eq,
    take_xor_rest]

theorem whole_count (l : Octets) :
    ((l.take (l.length / 16 * 16)).length + 15) / 16 = l.length / 16 * 16 / 16 := by
  have := length_take_whole l
  rw [wholeBlocks] at this
  omega

theorem vecEncrypt_eq : vecEncrypt aesRound = aegisPureEncrypt := by
  funext m ad nonce key
  simp only [vecEncrypt, aegisPureEncrypt, vecInit_eq, vecAdUpdate_eq, vecEncBlocks_eq, vecEncFinal_eq,
    aegisEncUpdate, whole_count]

theorem vecDecrypt_eq : vecDecrypt aesRound = aegisPureDecrypt := by
  funext c ad nonce key tag
  simp only [vecDecrypt, aegisPureDecrypt, vecInit_eq, vecAdUpdate_eq, vecDecBlocks_eq, vecDecFinal_eq,
    aegisDecUpdate, whole_count]

/-- Every backend encrypts as the pure C cipher does. -/
@[simp] theorem aegisEncrypt_eq (b : Backend) : aegisEncrypt b = aegisPureEncrypt := by
  cases b with
  | pureC => rfl
  | x86 => rw [aegisEncrypt, aegis128X86Encrypt, x86AesRound_eq, vecEncrypt_eq]
  | armcrypto => rw [aegisEncrypt, aegis128ArmcryptoEncrypt, armcryptoAesRound_eq, vecEncrypt_eq]

@[simp] theorem aegisDecrypt_eq (b : Backend) : aegisDecrypt b = aegisPureDecrypt := by
  cases b with
  | pureC => rfl
  | x86 => rw [aegisDecrypt, aegis128X86Decrypt, x86AesRound_eq, vecDecrypt_eq]
  | armcrypto => rw [aegisDecrypt, aegis128ArmcryptoDecrypt, armcryptoAesRound_eq, vecDecrypt_eq]

/-- The accelerated functions give the ciphertext and tag, the return code and the buffer of the pure C ones,
    so what one backend encrypts every backend decrypts. -/
theorem backends_agree (m ad : Octets) (nonce key : Block) :
    aegis128X86Encrypt m ad nonce key = aegisPureEncrypt m ad nonce key ∧
      aegis128ArmcryptoEncrypt m ad nonce key = aegisPureEncrypt m ad nonce key ∧
      (∀ c tag, aegis128X86Decrypt c ad nonce key tag = aegisPureDecrypt c ad nonce key tag ∧
        aegis128ArmcryptoDecrypt c ad nonce key tag = aegisPureDecrypt c ad nonce key tag) ∧
      ∀ b b' : Backend, aegisDecrypt b' (aegisEncrypt b m ad nonce key).1 ad nonce key (aegisEncrypt b m ad nonce key).2 =
        ⟨0, m⟩ := by
  refine ⟨congrFun₂ (congrFun₂ (aegisEncrypt_eq .x86) m ad) nonce key,
    congrFun₂ (congrFun₂ (aegisEncrypt_eq .armcrypto) m ad) nonce key, fun c tag => ⟨?_, ?_⟩, fun b b' => ?_⟩
  · exact congrFun (congrFun₂ (congrFun₂ (aegisDecrypt_eq .x86) c ad) nonce key) tag
  · exact congrFun (congrFun₂ (congrFun₂ (aegisDecrypt_eq .armcrypto) c ad) nonce key) tag
  · rw [aegisEncrypt_eq, aegisDecrypt_eq]
    exact aegisPureDecrypt_encrypt m ad nonce key

end AegisTunnel
