import AegisTunnel.Theorems.Frame

/-! What a failed decryption leaves in the output buffer. `aegis_dec_final` zeroes the bytes it was given,
    which are those after the whole blocks; the blocks that `aegis_dec_update` wrote before stay. -/

namespace AegisTunnel
open Octets

def Wiped (l : Octets) : Prop := ∀ b ∈ l, b = 0

/-- The whole blocks of a ciphertext are the encryption of zero bytes; so it is for fewer than 16 bytes. -/
def ZeroBlocks (c ad : Octets) (nonce key : Block) : Prop :=
  c.take (wholeBlocks c) = (aegisPureEncrypt (List.replicate (wholeBlocks c) 0) ad nonce key).1

theorem zeroBlocks_of_lt {c : Octets} (h : c.length < 16) (ad : Octets) (nonce key : Block) :
    ZeroBlocks c ad nonce key := by
  have hz : wholeBlocks c = 0 := by rw [wholeBlocks, Nat.div_eq_of_lt h]
  have hlen := length_aegisPureEncrypt (List.replicate 0 0) ad nonce key
  rw [ZeroBlocks, hz, List.take_zero]
  exact (List.length_eq_zero_iff.mp hlen).symm

/-! ### Where the parsers fail after decryption -/

theorem parseBody_rejected {b : Backend} {header rest d : Octets} {n : Nat} {nonce key : Block}
    (h : parseBody b header rest n nonce key = .rejected d) :
    aegisPureDecrypt (rest.take n) header nonce key (load 16 (rest.drop n)) = ⟨-1, d⟩ := by
  simp only [parseBody, aegisDecrypt_eq] at h
  rcases aegisPureDecrypt_ret (rest.take n) header nonce key (load 16 (rest.drop n)) with hret | hret
  · rw [if_neg (not_not_intro hret)] at h
    cases h
  · rw [if_pos (by rw [hret]; decide)] at h
    cases h
    rw [← hret]

theorem frameParse_rejected {b : Backend} {buf d : Octets} {ctr : UInt64} {key : Block}
    (h : frameParse b buf ctr key = .rejected d) :
    parseBody b (buf.take 4) (buf.drop 4) (headerPayloadLen buf) (nonceFromCounter ctr) key = .rejected d := by
  have hlen := frameParse_length (by rw [h]; exact ParseOut.noConfusion)
  rwa [frameParse_eq_parseBody hlen] at h

theorem frameParseExplicit_rejected {b : Backend} {buf d : Octets} {key : Block}
    (h : frameParseExplicit b buf key = .rejected d) :
    parseBody b (buf.take 12) (buf.drop 12) (headerPayloadLen buf) (load 16 ((buf.drop 4).take 8)) key =
      .rejected d := by
  have hlen := frameParseExplicit_length (by rw [h]; exact ParseOut.noConfusion)
  rwa [frameParseExplicit_eq_parseBody hlen] at h

/-- A body that fails leaves a wiped buffer exactly when its whole blocks encrypt zeros. -/
theorem parseBody_wiped_iff {b : Backend} {header rest d : Octets} {n : Nat} {nonce key : Block}
    (h : parseBody b header rest n nonce key = .rejected d) :
    Wiped d ↔ ZeroBlocks (rest.take n) header nonce key := by
  have hdec := parseBody_rejected h
  have hret : (aegisPureDecrypt (rest.take n) header nonce key (load 16 (rest.drop n))).ret = -1 := by rw [hdec]
  have hiff := aegisPureDecrypt_wiped_iff hret
  rw [hdec] at hiff
  exact hiff

/-! ### The buffers after a failure -/

/-- Sixteen zero bytes under the zero key, with a zero tag: the tag is wrong and the block that was
    decrypted before the check is still there. -/
theorem aegisPureDecrypt_zeros :
    aegisPureDecrypt (List.replicate 16 0) [2, 0, 0, 16] (nonceFromCounter 1) (Word.zero 16) (Word.zero 16) =
      ⟨-1, [117, 244, 161, 56, 108, 42, 202, 141, 3, 197, 24, 43, 162, 134, 82, 136]⟩ := by
  decide +kernel

theorem frameParse_zeros :
    frameParse .pureC ([2, 0, 0, 16] ++ List.replicate 32 0) 1 (Word.zero 16) =
      .rejected [117, 244, 161, 56, 108, 42, 202, 141, 3, 197, 24, 43, 162, 134, 82, 136] := by
  have hlen : headerPayloadLen ([2, 0, 0, 16] ++ List.replicate 32 0) = 16 := by decide
  -- The cipher stays folded: only its arguments are computed here.
  have hparts : aegisPureDecrypt ((([2, 0, 0, 16] ++ List.replicate 32 0 : Octets).drop 4).take 16)
      (([2, 0, 0, 16] ++ List.replicate 32 0 : Octets).take 4) (nonceFromCounter 1) (Word.zero 16)
      (load 16 ((([2, 0, 0, 16] ++ List.replicate 32 0 : Octets).drop 4).drop 16)) =
      aegisPureDecrypt (List.replicate 16 0) [2, 0, 0, 16] (nonceFromCounter 1) (Word.zero 16) (Word.zero 16) := by
    congr 1
  rw [frameParse_eq_parseBody (by decide), hlen]
  simp only [parseBody, aegisDecrypt_eq]
  rw [hparts, aegisPureDecrypt_zeros]
  rfl

theorem frameParseExplicit_zeros :
    frameParseExplicit .pureC ([2, 0, 0, 0] ++ List.replicate 24 0) (Word.zero 16) = .rejected [] := by
  decide +kernel

/-- After a failed decryption, and after a failed parse of either frame format past its length checks,
    the payload buffer is all zero exactly when the whole blocks of the ciphertext encrypt zeros. In
    particular it is for ciphertexts of fewer than 16 bytes. -/
theorem failed_decrypt_wiped_iff (b : Backend) (c ad buf d : Octets) (nonce key tag : Block) (ctr : UInt64) :
    ((aegisPureDecrypt c ad nonce key tag).ret = -1 →
      (Wiped (aegisPureDecrypt c ad nonce key tag).dst ↔ ZeroBlocks c ad nonce key)) ∧
    (frameParse b buf ctr key = .rejected d →
      (Wiped d ↔ ZeroBlocks ((buf.drop 4).take (headerPayloadLen buf)) (buf.take 4) (nonceFromCounter ctr) key)) ∧
    (frameParseExplicit b buf key = .rejected d →
      (Wiped d ↔ ZeroBlocks ((buf.drop 12).take (headerPayloadLen buf)) (buf.take 12)
        (load 16 ((buf.drop 4).take 8)) key)) ∧
    (c.length < 16 → ZeroBlocks c ad nonce key) := by
  refine ⟨aegisPureDecrypt_wiped_iff, fun h => ?_, fun h => ?_, fun h => zeroBlocks_of_lt h ad nonce key⟩
  · exact parseBody_wiped_iff (frameParse_rejected h)
  · exact parseBody_wiped_iff (frameParseExplicit_rejected h)

/-- A wrong tag leaves the first block in the buffer, of `aegis_decrypt` and of `frame_parse`. -/
theorem failed_decrypt_keeps_block :
    (aegisPureDecrypt (List.replicate 16 0) [2, 0, 0, 16] (nonceFromCounter 1) (Word.zero 16) (Word.zero 16)).ret = -1 ∧
    ¬ Wiped (aegisPureDecrypt (List.replicate 16 0) [2, 0, 0, 16] (nonceFromCounter 1) (Word.zero 16)
      (Word.zero 16)).dst ∧
    ∃ d, frameParse .pureC ([2, 0, 0, 16] ++ List.replicate 32 0) 1 (Word.zero 16) = .rejected d ∧ ¬ Wiped d := by
  have hleft : ¬ Wiped [117, 244, 161, 56, 108, 42, 202, 141, 3, 197, 24, 43, 162, 134, 82, 136] := fun h =>
    absurd (h 117 (List.mem_cons_self ..)) (by decide)
  rw [aegisPureDecrypt_zeros]
  exact ⟨rfl, hleft, _, frameParse_zeros, hleft⟩

theorem failed_decrypt_wiped_iff_zeros :
    (Wiped (aegisPureDecrypt (List.replicate 16 0) [2, 0, 0, 16] (nonceFromCounter 1) (Word.zero 16)
        (Word.zero 16)).dst ↔
      ZeroBlocks (List.replicate 16 0) [2, 0, 0, 16] (nonceFromCounter 1) (Word.zero 16)) ∧
    (∃ buf d : Octets, frameParse .pureC buf 1 (Word.zero 16) = .rejected d ∧
      (Wiped d ↔ ZeroBlocks ((buf.drop 4).take (headerPayloadLen buf)) (buf.take 4) (nonceFromCounter 1)
        (Word.zero 16))) ∧
    (∃ buf d : Octets, frameParseExplicit .pureC buf (Word.zero 16) = .rejected d ∧
      (Wiped d ↔ ZeroBlocks ((buf.drop 12).take (headerPayloadLen buf)) (buf.take 12)
        (load 16 ((buf.drop 4).take 8)) (Word.zero 16))) ∧
    ZeroBlocks [1] [] (Word.zero 16) (Word.zero 16) := by
  have hret : (aegisPureDecrypt (List.replicate 16 0) [2, 0, 0, 16] (nonceFromCounter 1) (Word.zero 16)
      (Word.zero 16)).ret = -1 := by
    rw [aegisPureDecrypt_zeros]
  obtain ⟨hdec, hframe, -, -⟩ := failed_decrypt_wiped_iff .pureC (List.replicate 16 0) [2, 0, 0, 16]
    ([2, 0, 0, 16] ++ List.replicate 32 0)
    [117, 244, 161, 56, 108, 42, 202, 141, 3, 197, 24, 43, 162, 134, 82, 136] (nonceFromCounter 1) (Word.zero 16)
    (Word.zero 16) 1
  obtain ⟨-, -, hexplicit, hshort⟩ := failed_decrypt_wiped_iff .pureC [1] [] ([2, 0, 0, 0] ++ List.replicate 24 0) []
    (Word.zero 16) (Word.zero 16) (Word.zero 16) 1
  exact ⟨hdec hret, ⟨_, _, frameParse_zeros, hframe frameParse_zeros⟩,
    ⟨_, _, frameParseExplicit_zeros, hexplicit frameParseExplicit_zeros⟩, hshort (by decide)⟩

end AegisTunnel
