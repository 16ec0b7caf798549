import AegisTunnel.Crypto.Aegis

/-! The pure C cipher is a duplex: its block loops are those of `Duplex`, so decryption undoes
    encryption and accepts nothing else, and a failed decryption leaves its whole blocks in the buffer. -/

namespace AegisTunnel
open Octets

/-- The duplex of `key_stream` and `state_update128`. -/
def aegisDuplex : Duplex AegisState 16 := ⟨keyStream, stateUpdate128⟩

/-! ### The block loops -/

theorem encBlocks_eq (k : Nat) (S : AegisState) (src : Octets) : encBlocks k S src = aegisDuplex.encLoop k S src := by
  induction k generalizing S src with
  | zero => rfl
  | succ k ih => simp only [encBlocks, Duplex.encLoop, processEncBlock, ih]; rfl

theorem decBlocks_eq (k : Nat) (S : AegisState) (src : Octets) : decBlocks k S src = aegisDuplex.decLoop k S src := by
  induction k generalizing S src with
  | zero => rfl
  | succ k ih => simp only [decBlocks, Duplex.decLoop, processDecBlock, ih]; rfl

theorem aegisEncFinal_eq (st : AegisState) (src : Octets) :
    aegisEncFinal st src = ((aegisDuplex.encText st src).1, aegisTag (aegisDuplex.encText st src).2) := by
  have hfull : src.length / 16 * 16 / 16 = src.length / 16 := Nat.mul_div_cancel _ (by decide)
  simp only [aegisEncFinal, Duplex.encText, Duplex.encTail, encBlocks_eq, hfull, List.length_drop]
  rfl

/-! ### Tags -/

theorem foldl_or_eq_zero (l : List (UInt8 × UInt8)) (d : UInt8) :
    l.foldl (fun diff p => diff ||| (p.1 ^^^ p.2)) d = 0 ↔ d = 0 ∧ ∀ p ∈ l, p.1 = p.2 := by
  induction l generalizing d with
  | nil => simp
  | cons p l ih =>
    rw [List.foldl_cons, ih]
    simp only [UInt8.or_eq_zero_iff, UInt8.xor_eq_zero_iff, List.forall_mem_cons, and_assoc]

theorem tagDiff_eq_zero {t t' : Block} : tagDiff t t' = 0 ↔ t = t' := by
  rw [tagDiff, foldl_or_eq_zero]
  constructor
  · rintro ⟨-, h⟩
    apply List.Vector.toList_injective
    refine List.ext_getElem (by simp) fun i hi hi' => ?_
    exact h (t.toList[i], t'.toList[i]) (List.mem_iff_getElem.mpr ⟨i, by simpa using hi, by simp⟩)
  · rintro rfl
    refine ⟨rfl, fun p hp => ?_⟩
    obtain ⟨i, hi, rfl⟩ := List.mem_iff_getElem.mp hp
    simp

theorem aegisDecFinal_eq (st : AegisState) (src : Octets) (tag : Block) :
    aegisDecFinal st src tag = if aegisTag (aegisDuplex.decText st src).2 = tag then ⟨0, (aegisDuplex.decText st src).1⟩
      else ⟨-1, List.replicate src.length 0⟩ := by
  have hfull : src.length / 16 * 16 / 16 = src.length / 16 := Nat.mul_div_cancel _ (by decide)
  simp only [aegisDecFinal, Duplex.decText, Duplex.decTail, decBlocks_eq, hfull, List.length_drop, ne_eq,
    tagDiff_eq_zero, ite_not]
  rfl

/-! ### The one-shot functions -/

/-- The state in which the message starts: after initialisation and the associated data. -/
def aegisStart (ad : Octets) (nonce key : Block) : AegisState :=
  if ad.length > 0 then aegisAdUpdate (aegisInit key nonce) ad else aegisInit key nonce

def wholeBlocks (l : Octets) : Nat := l.length / 16 * 16

theorem wholeBlocks_le (l : Octets) : wholeBlocks l ≤ l.length := Nat.div_mul_le_self _ _

theorem length_take_whole (l : Octets) : (l.take (wholeBlocks l)).length = l.length / 16 * 16 := by
  rw [List.length_take, Nat.min_eq_left (wholeBlocks_le l), wholeBlocks]

/-- The update call on the whole blocks of `m` runs the loop on them; with none it is skipped. -/
theorem encUpdate_whole (st : AegisState) (m : Octets) :
    (if wholeBlocks m > 0 then aegisEncUpdate st (m.take (wholeBlocks m)) else ([], st)) =
      aegisDuplex.encLoop (m.length / 16) st (m.take (wholeBlocks m)) := by
  split
  · have : ((m.take (wholeBlocks m)).length + 15) / 16 = m.length / 16 := by rw [length_take_whole]; omega
    rw [aegisEncUpdate, this, encBlocks_eq]
  · have : m.length / 16 = 0 := by unfold wholeBlocks at *; omega
    rw [this]
    rfl

theorem decUpdate_whole (st : AegisState) (c : Octets) :
    (if wholeBlocks c > 0 then aegisDecUpdate st (c.take (wholeBlocks c)) else ([], st)) =
      aegisDuplex.decLoop (c.length / 16) st (c.take (wholeBlocks c)) := by
  split
  · have : ((c.take (wholeBlocks c)).length + 15) / 16 = c.length / 16 := by rw [length_take_whole]; omega
    rw [aegisDecUpdate, this, decBlocks_eq]
  · have : c.length / 16 = 0 := by unfold wholeBlocks at *; omega
    rw [this]
    rfl

/-- One-shot encryption encrypts the whole text as a duplex and tags the last state. -/
theorem aegisPureEncrypt_eq (m ad : Octets) (nonce key : Block) :
    aegisPureEncrypt m ad nonce key = ((aegisDuplex.encText (aegisStart ad nonce key) m).1,
      aegisTag (aegisDuplex.encText (aegisStart ad nonce key) m).2) := by
  have happ := Duplex.encText_blocks_append (d := aegisDuplex) (S := aegisStart ad nonce key) (by decide)
    (length_take_whole m) (m.drop (wholeBlocks m))
  rw [List.take_append_drop] at happ
  rw [happ]
  simp only [aegisPureEncrypt, ← wholeBlocks.eq_def, encUpdate_whole, aegisEncFinal_eq]
  rfl

/-- One-shot decryption decrypts the whole text as a duplex. On a tag mismatch only the bytes after the
    whole blocks are zeroed. -/
theorem aegisPureDecrypt_eq (c ad : Octets) (nonce key tag : Block) :
    aegisPureDecrypt c ad nonce key tag =
      if aegisTag (aegisDuplex.decText (aegisStart ad nonce key) c).2 = tag then
        ⟨0, (aegisDuplex.decText (aegisStart ad nonce key) c).1⟩
      else ⟨-1, (aegisDuplex.decLoop (c.length / 16) (aegisStart ad nonce key) c).1 ++
        List.replicate (c.length - wholeBlocks c) 0⟩ := by
  have happ := Duplex.decText_blocks_append (d := aegisDuplex) (S := aegisStart ad nonce key) (by decide)
    (length_take_whole c) (c.drop (wholeBlocks c))
  have hloop := Duplex.decLoop_append (d := aegisDuplex) (S := aegisStart ad nonce key) (length_take_whole c).ge
    (c.drop (wholeBlocks c))
  rw [List.take_append_drop] at happ hloop
  rw [happ, hloop]
  simp only [aegisPureDecrypt, ← wholeBlocks.eq_def, ← aegisStart.eq_def, decUpdate_whole, aegisDecFinal_eq,
    List.length_drop]
  split <;> rfl

/-- Decryption undoes encryption, for every length. -/
theorem aegisPureDecrypt_encrypt (m ad : Octets) (nonce key : Block) :
    aegisPureDecrypt (aegisPureEncrypt m ad nonce key).1 ad nonce key (aegisPureEncrypt m ad nonce key).2 = ⟨0, m⟩ := by
  simp only [aegisPureDecrypt_eq, aegisPureEncrypt_eq, Duplex.decText_encText (n := 16) (by decide), if_true]

/-- Nothing outside the image of encryption is accepted. -/
theorem aegisPureEncrypt_of_decrypt {c m ad : Octets} {nonce key tag : Block}
    (h : aegisPureDecrypt c ad nonce key tag = ⟨0, m⟩) : aegisPureEncrypt m ad nonce key = (c, tag) := by
  rw [aegisPureDecrypt_eq] at h
  rw [aegisPureEncrypt_eq]
  split at h
  next htag =>
    have hdec : aegisDuplex.decText (aegisStart ad nonce key) c =
        (m, (aegisDuplex.decText (aegisStart ad nonce key) c).2) := by
      simp only [DecOut.mk.injEq, true_and] at h
      rw [← h]
    rw [(Duplex.decText_eq_iff (by decide)).mp hdec, htag]
  next => simp at h

/-- AEAD exactness: decryption returns 0 with output `m` exactly when encryption of `m` produces the
    ciphertext and the tag. -/
theorem aegisPureDecrypt_ok_iff (c m ad : Octets) (nonce key tag : Block) :
    aegisPureDecrypt c ad nonce key tag = ⟨0, m⟩ ↔ aegisPureEncrypt m ad nonce key = (c, tag) := by
  refine ⟨aegisPureEncrypt_of_decrypt, fun h => ?_⟩
  have := aegisPureDecrypt_encrypt m ad nonce key
  rwa [h] at this

@[simp] theorem length_aegisPureEncrypt (m ad : Octets) (nonce key : Block) :
    (aegisPureEncrypt m ad nonce key).1.length = m.length := by
  rw [aegisPureEncrypt_eq, Duplex.length_encText (by decide)]

/-! ### Failed decryptions -/

theorem aegisPureDecrypt_ret (c ad : Octets) (nonce key tag : Block) :
    (aegisPureDecrypt c ad nonce key tag).ret = 0 ∨ (aegisPureDecrypt c ad nonce key tag).ret = -1 := by
  rw [aegisPureDecrypt_eq]
  split
  · exact Or.inl rfl
  · exact Or.inr rfl

theorem aegisPureEncrypt_whole {k : Nat} {m : Octets} (hm : m.length = k * 16) (ad : Octets) (nonce key : Block) :
    (aegisPureEncrypt m ad nonce key).1 = (aegisDuplex.encLoop k (aegisStart ad nonce key) m).1 := by
  have h := Duplex.encText_blocks_append (d := aegisDuplex) (S := aegisStart ad nonce key) (by decide) hm []
  rw [List.append_nil, Duplex.encText_nil, List.append_nil] at h
  rw [aegisPureEncrypt_eq, h]

/-- After a failed decryption the buffer is all zero exactly when the whole blocks of the ciphertext
    encrypt zeros, since only the rest is wiped. -/
theorem aegisPureDecrypt_wiped_iff {c ad : Octets} {nonce key tag : Block}
    (h : (aegisPureDecrypt c ad nonce key tag).ret = -1) :
    (∀ b ∈ (aegisPureDecrypt c ad nonce key tag).dst, b = 0) ↔
      c.take (wholeBlocks c) = (aegisPureEncrypt (List.replicate (wholeBlocks c) 0) ad nonce key).1 := by
  rw [aegisPureDecrypt_eq] at h ⊢
  split at h
  next => simp at h
  next htag =>
    rw [if_neg htag, aegisPureEncrypt_whole (k := c.length / 16) (by simp [wholeBlocks])]
    have hz := (Duplex.decLoop_eq_iff (d := aegisDuplex) (k := c.length / 16) (S := aegisStart ad nonce key) (c := c)
      (m := List.replicate (wholeBlocks c) 0) (Duplex.blocks_le c) (by simp [wholeBlocks])).trans eq_comm
    rw [← wholeBlocks.eq_def] at hz
    rw [← hz, List.eq_replicate_iff]
    simp only [List.mem_append, List.mem_replicate]
    -- The wiped rest is zero in any case; what is left is the plaintext of the whole blocks.
    constructor
    · intro hall
      exact ⟨by simp [wholeBlocks], fun b hb => hall b (Or.inl hb)⟩
    · rintro ⟨-, hall⟩ b (hb | ⟨-, rfl⟩)
      · exact hall b hb
      · rfl

end AegisTunnel
