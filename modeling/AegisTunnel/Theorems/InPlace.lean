import AegisTunnel.Crypto.Buffers
import AegisTunnel.Theorems.Streaming

/-! Encryption and decryption where the output is the buffer of the input. Every function but one reads
    what it absorbs before it overwrites it, or absorbs what it has written. The block loop of
    `aegis_enc_final` absorbs the ciphertext instead of the plaintext, so that a last chunk of a block or
    more is not encrypted as with separate buffers. -/

namespace AegisTunnel
open Octets Reference

/-! ### Two buffers in a memory -/

/-- Two buffers of `n` octets that are the same or do not overlap. -/
structure Fits (inPlace : Bool) (dst src n : Nat) (mem : Octets) : Prop where
  placed : if inPlace then dst = src else dst + n ≤ src ∨ src + n ≤ dst
  dst_le : dst + n ≤ mem.length
  src_le : src + n ≤ mem.length

namespace Fits
variable {inPlace : Bool} {dst src n k : Nat} {mem : Octets}

theorem forward (fits : Fits inPlace dst src n mem) : dst ≤ src ∨ src + n ≤ dst := by
  have := fits.placed
  cases inPlace
  · simp only [Bool.false_eq_true, if_false] at this
    omega
  · simp only [if_true] at this
    omega

theorem left (fits : Fits inPlace dst src (n + k) mem) : Fits inPlace dst src n mem := by
  obtain ⟨placed, dst_le, src_le⟩ := fits
  refine ⟨?_, by omega, by omega⟩
  cases inPlace
  · simp only [Bool.false_eq_true, if_false] at placed ⊢
    omega
  · exact placed

theorem right (fits : Fits inPlace dst src (n + k) mem) {bytes : Octets} (len : bytes.length = n) :
    Fits inPlace (dst + n) (src + n) k (poke mem dst bytes) := by
  obtain ⟨placed, dst_le, src_le⟩ := fits
  have room : dst + bytes.length ≤ mem.length := by omega
  refine ⟨?_, by rw [length_poke room]; omega, by rw [length_poke room]; omega⟩
  cases inPlace
  · simp only [Bool.false_eq_true, if_false] at placed ⊢
    omega
  · simp only [if_true] at placed ⊢
    omega

/-- What is written to the first part leaves the second part of the source alone. -/
theorem unread (fits : Fits inPlace dst src (n + k) mem) {bytes : Octets} (len : bytes.length = n) {off j : Nat}
    (after : src + n ≤ off) (within : off + j ≤ src + n + k) : slice (poke mem dst bytes) off j = slice mem off j := by
  obtain ⟨placed, dst_le, src_le⟩ := fits
  refine slice_poke_of_disjoint (by omega) ?_
  cases inPlace
  · simp only [Bool.false_eq_true, if_false] at placed
    omega
  · simp only [if_true] at placed
    omega

end Fits

/-! ### Block loops -/

/-- The body of a block loop masks a block and absorbs it as `d` does. -/
def Runs (inPlace : Bool) (d : Duplex AegisState 16) (body : AegisState → Nat → Nat → Octets → AegisState × Octets) : Prop :=
  ∀ S dst src mem, Fits inPlace dst src 16 mem → body S dst src mem =
    (d.update S (load 16 (slice mem src 16)), poke mem dst ((load 16 (slice mem src 16)).xor (d.keyStream S)).toList)

section Loop
variable {inPlace : Bool} {d : Duplex AegisState 16} {dst src k : Nat} {mem : Octets}
  {body : AegisState → Nat → Nat → Octets → AegisState × Octets}

theorem Runs.blockLoop (runs : Runs inPlace d body) (S : AegisState) (fits : Fits inPlace dst src (k * 16) mem) :
    blockLoop body k S dst src mem =
      ((d.encLoop k S (slice mem src (k * 16))).2, poke mem dst (d.encLoop k S (slice mem src (k * 16))).1) := by
  induction k generalizing S dst src mem with
  | zero => simp [AegisTunnel.blockLoop, Duplex.encLoop]
  | succ k ih =>
    have whole : (k + 1) * 16 = 16 + k * 16 := by omega
    rw [whole] at fits ⊢
    have first : (slice mem src 16).length = 16 := length_slice (by have := fits.src_le; omega)
    have len : ((load 16 (slice mem src 16)).xor (d.keyStream S)).toList.length = 16 := List.Vector.toList_length _
    have rest := fits.right len
    have unread := fits.unread len le_rfl le_rfl
    rw [AegisTunnel.blockLoop, runs S dst src mem fits.left]
    simp only
    rw [ih _ rest, unread, slice_add, Duplex.encLoop, load_append first.ge, List.drop_left' first]
    simp only
    have room := fits.dst_le
    have out : (d.encLoop k (d.update S (load 16 (slice mem src 16))) (slice mem (src + 16) (k * 16))).1.length = k * 16 :=
      Duplex.length_encLoop
    rw [poke_poke len (by rw [out]; omega)]

theorem xorLoop_block (ks : Block) (fits : Fits inPlace dst src 16 mem) :
    xorLoop ks dst src 16 mem = poke mem dst ((load 16 (slice mem src 16)).xor ks).toList := by
  rw [xorLoop_eq ks le_rfl fits.dst_le fits.src_le fits.forward, mask_eq_toList ks (length_slice fits.src_le)]

theorem slice_poke_block (fits : Fits inPlace dst src 16 mem) (w : Block) : slice (poke mem dst w.toList) dst 16 = w.toList :=
  slice_poke w.toList_length fits.dst_le

theorem slice_poke_apart (fits : Fits false dst src 16 mem) (w : Block) : slice (poke mem dst w.toList) src 16 = slice mem src 16 := by
  have placed := fits.placed
  have room := fits.dst_le
  simp only [Bool.false_eq_true, if_false] at placed
  exact slice_poke_of_disjoint (by rw [w.toList_length]; exact room) (by rw [w.toList_length]; omega)

theorem runs_processEncBlockAt (inPlace : Bool) : Runs inPlace aegisDuplex processEncBlockAt := by
  intro S dst src mem fits
  unfold processEncBlockAt
  split
  next => rfl
  next differ =>
    cases inPlace with
    | true => exact absurd fits.placed (by simpa using differ)
    | false =>
      simp only [xorLoop_block (keyStream S) fits, slice_poke_apart fits]
      rfl

theorem runs_processDecBlockAt (inPlace : Bool) : Runs inPlace aegisDuplex.masked processDecBlockAt := by
  intro S dst src mem fits
  simp only [processDecBlockAt, xorLoop_block (keyStream S) fits, slice_poke_block fits, load_toList]
  rfl

theorem runs_encFinalBlockAt_apart : Runs false aegisDuplex encFinalBlockAt := by
  intro S dst src mem fits
  simp only [encFinalBlockAt, xorLoop_block (keyStream S) fits, slice_poke_apart fits]
  rfl

/-- In place the loop of `aegis_enc_final` absorbs the ciphertext. -/
theorem runs_encFinalBlockAt_inPlace : Runs true aegisDuplex.masked encFinalBlockAt := by
  intro S dst src mem fits
  obtain rfl : dst = src := fits.placed
  simp only [encFinalBlockAt, xorLoop_block (keyStream S) fits, slice_poke_block fits, load_toList]
  rfl

/-- An update call for each chunk is the loop over all their blocks. -/
theorem Runs.chunksAt (runs : Runs inPlace d body) (update : AegisState → Nat → Nat → Nat → Octets → AegisState × Octets)
    (loop : ∀ st dst src n mem, update st dst src n mem = AegisTunnel.blockLoop body ((n + 15) / 16) st dst src mem)
    {lens : List Nat} (whole : ∀ n ∈ lens, 16 ∣ n) (st : AegisState) (fits : Fits inPlace dst src lens.sum mem) :
    chunksAt update lens st dst src mem = ((d.encLoop (lens.sum / 16) st (slice mem src lens.sum)).2,
      poke mem dst (d.encLoop (lens.sum / 16) st (slice mem src lens.sum)).1) := by
  induction lens generalizing st dst src mem with
  | nil => simp [AegisTunnel.chunksAt, Duplex.encLoop]
  | cons n lens ih =>
    rw [List.forall_mem_cons] at whole
    rw [List.sum_cons] at fits ⊢
    obtain ⟨k, rfl⟩ := whole.1
    rw [Nat.mul_comm 16 k] at fits ⊢
    have rounds : (k * 16 + 15) / 16 = k := by omega
    have split : (k * 16 + lens.sum) / 16 = k + lens.sum / 16 := by omega
    have first : (slice mem src (k * 16)).length = k * 16 := length_slice (by have := fits.src_le; omega)
    have out : (d.encLoop k st (slice mem src (k * 16))).1.length = k * 16 := Duplex.length_encLoop
    have rest := fits.right out
    have unread := fits.unread out le_rfl le_rfl
    rw [AegisTunnel.chunksAt, loop, rounds, runs.blockLoop st fits.left]
    simp only
    rw [ih whole.2 _ rest, unread, split, slice_add, Duplex.encLoop_add, Duplex.encLoop_append first.ge, List.drop_left' first]
    simp only
    have sum : lens.sum / 16 * 16 = lens.sum := Nat.div_mul_cancel (List.dvd_sum whole.2)
    have room := fits.dst_le
    rw [poke_poke out (by rw [Duplex.length_encLoop, sum]; omega)]

/-! ### The final functions -/

variable {rem : Nat}

theorem full_blocks (few : rem < 16) : (k * 16 + rem) / 16 * 16 = k * 16 := by omega

theorem aegisEncFinalAt_eq (runs : Runs inPlace d encFinalBlockAt) (few : rem < 16) (st : AegisState)
    (fits : Fits inPlace dst src (k * 16 + rem) mem) :
    aegisEncFinalAt st dst src (k * 16 + rem) mem =
      let r := d.encLoop k st (slice mem src (k * 16))
      let t := aegisDuplex.encTail r.2 (slice mem (src + k * 16) rem)
      (aegisTag t.2, poke mem dst (r.1 ++ t.1)) := by
  have out : (d.encLoop k st (slice mem src (k * 16))).1.length = k * 16 := Duplex.length_encLoop
  have rest := fits.right out
  have unread := fits.unread out le_rfl le_rfl
  have len : (slice mem (src + k * 16) rem).length = rem := length_slice (by have := fits.src_le; omega)
  simp only [aegisEncFinalAt, full_blocks few, Nat.mul_div_cancel _ (by decide : 0 < 16), Nat.add_sub_cancel_left,
    runs.blockLoop st fits.left, unread, Duplex.encTail, len]
  split
  next =>
    have room := fits.dst_le
    rw [xorLoop_eq _ few.le rest.dst_le rest.src_le rest.forward, unread,
      poke_poke out (by rw [length_mask _ (by omega), len]; omega)]
    rfl
  next => rw [List.append_nil]

theorem aegisDecFinalAt_eq (few : rem < 16) (st : AegisState) (tag : Block)
    (fits : Fits inPlace dst src (k * 16 + rem) mem) :
    aegisDecFinalAt st dst src (k * 16 + rem) tag mem =
      let r := aegisDuplex.decLoop k st (slice mem src (k * 16))
      let t := aegisDuplex.decTail r.2 (slice mem (src + k * 16) rem)
      if aegisTag t.2 = tag then (0, poke mem dst (r.1 ++ t.1))
      else (-1, poke mem dst (List.replicate (k * 16 + rem) 0)) := by
  have blocks := (runs_processDecBlockAt inPlace).blockLoop st fits.left
  rw [Duplex.masked_encLoop] at blocks
  have out : (aegisDuplex.decLoop k st (slice mem src (k * 16))).1.length = k * 16 := Duplex.length_decLoop
  generalize aegisDuplex.decLoop k st (slice mem src (k * 16)) = r at blocks out ⊢
  have rest := fits.right out
  have unread := fits.unread out le_rfl le_rfl
  have room := fits.dst_le
  have len : (slice mem (src + k * 16) rem).length = rem := length_slice (by have := fits.src_le; omega)
  have masked : (mask (slice mem (src + k * 16) rem) (keyStream r.2)).length = rem := by rw [length_mask _ (by omega), len]
  have back := slice_poke masked rest.dst_le
  -- The state and the memory before the tag is checked.
  have written : (if rem > 0 then
        let mem' := xorLoop (keyStream r.2) (dst + k * 16) (src + k * 16) rem (poke mem dst r.1)
        (stateUpdate128 r.2 (load 16 (slice mem' (dst + k * 16) rem)), mem')
      else (r.2, poke mem dst r.1)) =
      ((aegisDuplex.decTail r.2 (slice mem (src + k * 16) rem)).2,
        poke mem dst (r.1 ++ (aegisDuplex.decTail r.2 (slice mem (src + k * 16) rem)).1)) := by
    simp only [Duplex.decTail, len]
    split
    next =>
      rw [xorLoop_eq _ few.le rest.dst_le rest.src_le rest.forward, unread, back, poke_poke out (by rw [masked]; omega)]
      rfl
    next => rw [List.append_nil]
  simp only [aegisDecFinalAt, full_blocks few, Nat.mul_div_cancel _ (by decide : 0 < 16), Nat.add_sub_cancel_left, blocks,
    written, ne_eq, tagDiff_eq_zero, ite_not]
  split
  next => rfl
  next =>
    have all : (r.1 ++ (aegisDuplex.decTail r.2 (slice mem (src + k * 16) rem)).1).length = k * 16 + rem := by
      rw [List.length_append, out, Duplex.length_decTail (by omega), len]
    rw [poke_again (by rw [all]; exact room) (by rw [all, List.length_replicate])]

end Loop

/-! ### Messages -/

/-- What encryption makes of a message in three pieces: the chunks for the update function, the whole blocks
    of the last chunk, on which the state runs as that of `d`, and the rest. -/
def encrypted (d : Duplex AegisState 16) (st : AegisState) (a b c : Octets) : Block × Octets :=
  let r := aegisDuplex.encLoop (a.length / 16) st a
  let q := d.encLoop (b.length / 16) r.2 b
  let t := aegisDuplex.encTail q.2 c
  (aegisTag t.2, r.1 ++ (q.1 ++ t.1))

def decrypted (st : AegisState) (tag : Block) (a b c : Octets) : Int × Octets :=
  let r := aegisDuplex.decLoop (a.length / 16) st a
  let q := aegisDuplex.decLoop (b.length / 16) r.2 b
  let t := aegisDuplex.decTail q.2 c
  if aegisTag t.2 = tag then (0, r.1 ++ (q.1 ++ t.1)) else (-1, r.1 ++ List.replicate (b.length + c.length) 0)

section Message
variable {inPlace : Bool} {d : Duplex AegisState 16} {dst src k rem : Nat} {mem a b c : Octets} {lens : List Nat}

theorem length_encrypted (st : AegisState) (ha : 16 ∣ a.length) (hb : 16 ∣ b.length) (hc : c.length < 16) :
    (encrypted d st a b c).2.length = a.length + (b.length + c.length) := by
  simp only [encrypted, List.length_append, Duplex.length_encLoop, Duplex.length_encTail hc.le, Nat.div_mul_cancel ha,
    Nat.div_mul_cancel hb]

theorem length_decrypted (st : AegisState) (tag : Block) (ha : 16 ∣ a.length) (hb : 16 ∣ b.length) (hc : c.length < 16) :
    (decrypted st tag a b c).2.length = a.length + (b.length + c.length) := by
  unfold decrypted
  dsimp only
  split
  · simp only [List.length_append, Duplex.length_decLoop, Duplex.length_decTail hc.le, Nat.div_mul_cancel ha,
      Nat.div_mul_cancel hb]
  · simp only [List.length_append, Duplex.length_decLoop, List.length_replicate, Nat.div_mul_cancel ha]

/-- The three pieces of the source. -/
structure Pieces (lens : List Nat) (k rem src : Nat) (mem a b c : Octets) : Prop where
  first : a = slice mem src lens.sum
  second : b = slice mem (src + lens.sum) (k * 16)
  third : c = slice mem (src + lens.sum + k * 16) rem
  whole : ∀ n ∈ lens, 16 ∣ n
  few : rem < 16
  bound : src + (lens.sum + (k * 16 + rem)) ≤ mem.length

namespace Pieces

theorem length_first (pieces : Pieces lens k rem src mem a b c) : a.length = lens.sum := by
  rw [pieces.first, length_slice (by have := pieces.bound; omega)]

theorem length_second (pieces : Pieces lens k rem src mem a b c) : b.length = k * 16 := by
  rw [pieces.second, length_slice (by have := pieces.bound; omega)]

theorem length_third (pieces : Pieces lens k rem src mem a b c) : c.length = rem := by
  rw [pieces.third, length_slice (by have := pieces.bound; omega)]

theorem sum_whole (pieces : Pieces lens k rem src mem a b c) : lens.sum / 16 * 16 = lens.sum :=
  Nat.div_mul_cancel (List.dvd_sum pieces.whole)

theorem dvd_first (pieces : Pieces lens k rem src mem a b c) : 16 ∣ a.length :=
  pieces.length_first ▸ List.dvd_sum pieces.whole

theorem dvd_second (pieces : Pieces lens k rem src mem a b c) : 16 ∣ b.length :=
  pieces.length_second ▸ Nat.dvd_mul_left 16 k

theorem third_lt (pieces : Pieces lens k rem src mem a b c) : c.length < 16 := pieces.length_third ▸ pieces.few

theorem encryptAt_eq (pieces : Pieces lens k rem src mem a b c) (runs : Runs inPlace d encFinalBlockAt)
    (key nonce : Block) (ad : Octets) (fits : Fits inPlace dst src (lens.sum + (k * 16 + rem)) mem) :
    encryptAt key nonce ad lens (k * 16 + rem) dst src mem =
      ((encrypted d (aegisAdUpdate (aegisInit key nonce) ad) a b c).1,
        poke mem dst (encrypted d (aegisAdUpdate (aegisInit key nonce) ad) a b c).2) := by
  have chunks := (runs_processEncBlockAt inPlace).chunksAt aegisEncUpdateAt (fun _ _ _ _ _ => rfl) pieces.whole
    (aegisAdUpdate (aegisInit key nonce) ad) fits.left
  have out : (aegisDuplex.encLoop (lens.sum / 16) (aegisAdUpdate (aegisInit key nonce) ad) a).1.length = lens.sum := by
    rw [Duplex.length_encLoop, pieces.sum_whole]
  have room := fits.dst_le
  have few := pieces.few
  rw [← pieces.first] at chunks
  simp only [encryptAt, encrypted, pieces.length_first, pieces.length_second, Nat.mul_div_cancel _ (by decide : 0 < 16)]
  rw [chunks]
  simp only
  generalize aegisDuplex.encLoop (lens.sum / 16) (aegisAdUpdate (aegisInit key nonce) ad) a = r at out ⊢
  rw [aegisEncFinalAt_eq runs pieces.few _ (fits.right out), fits.unread out le_rfl (by omega),
    fits.unread out (by omega) (by omega), ← pieces.second, ← pieces.third]
  refine Prod.ext rfl (poke_poke out ?_)
  rw [List.length_append, Duplex.length_encLoop, Duplex.length_encTail (by rw [pieces.length_third]; omega),
    pieces.length_third]
  omega

theorem decryptAt_eq (pieces : Pieces lens k rem src mem a b c) (key nonce : Block) (ad : Octets) (tag : Block)
    (fits : Fits inPlace dst src (lens.sum + (k * 16 + rem)) mem) :
    decryptAt key nonce ad lens (k * 16 + rem) dst src tag mem =
      ((decrypted (aegisAdUpdate (aegisInit key nonce) ad) tag a b c).1,
        poke mem dst (decrypted (aegisAdUpdate (aegisInit key nonce) ad) tag a b c).2) := by
  have chunks := (runs_processDecBlockAt inPlace).chunksAt aegisDecUpdateAt (fun _ _ _ _ _ => rfl) pieces.whole
    (aegisAdUpdate (aegisInit key nonce) ad) fits.left
  have out : (aegisDuplex.decLoop (lens.sum / 16) (aegisAdUpdate (aegisInit key nonce) ad) a).1.length = lens.sum := by
    rw [Duplex.length_decLoop, pieces.sum_whole]
  have room := fits.dst_le
  have few := pieces.few
  rw [← pieces.first, Duplex.masked_encLoop] at chunks
  simp only [decryptAt, decrypted, pieces.length_first, pieces.length_second, pieces.length_third,
    Nat.mul_div_cancel _ (by decide : 0 < 16)]
  rw [chunks]
  simp only
  generalize aegisDuplex.decLoop (lens.sum / 16) (aegisAdUpdate (aegisInit key nonce) ad) a = r at out ⊢
  rw [aegisDecFinalAt_eq pieces.few _ tag (fits.right out), fits.unread out le_rfl (by omega),
    fits.unread out (by omega) (by omega), ← pieces.second, ← pieces.third]
  simp only
  split
  · refine Prod.ext rfl (poke_poke out ?_)
    rw [List.length_append, Duplex.length_decLoop, Duplex.length_decTail (by rw [pieces.length_third]; omega),
      pieces.length_third]
    omega
  · refine Prod.ext rfl (poke_poke out ?_)
    rw [List.length_replicate]
    omega

end Pieces

/-! ### One buffer and two buffers -/

variable {m out : Octets}

theorem fits_inPlace (len : m.length = lens.sum + (k * 16 + rem)) : Fits true 0 0 (lens.sum + (k * 16 + rem)) m :=
  ⟨rfl, by omega, by omega⟩

theorem fits_separate (len : m.length = lens.sum + (k * 16 + rem)) (same : out.length = m.length) :
    Fits false m.length 0 (lens.sum + (k * 16 + rem)) (m ++ out) :=
  ⟨.inr (by omega), by rw [List.length_append]; omega, by rw [List.length_append]; omega⟩

theorem slice_append_left {off n : Nat} (bound : off + n ≤ m.length) : slice (m ++ out) off n = slice m off n := by
  rw [slice, List.drop_append_of_le_length (by omega), List.take_append_of_le_length (by rw [List.length_drop]; omega), slice]

/-- The two memories have the same source. -/
theorem exists_pieces (whole : ∀ n ∈ lens, 16 ∣ n) (few : rem < 16) (len : m.length = lens.sum + (k * 16 + rem)) (out : Octets) :
    ∃ a b c, Pieces lens k rem 0 m a b c ∧ Pieces lens k rem 0 (m ++ out) a b c := by
  refine ⟨_, _, _, ⟨rfl, rfl, rfl, whole, few, by omega⟩, ⟨?_, ?_, ?_, whole, few, by rw [List.length_append]; omega⟩⟩
  · rw [slice_append_left (by omega)]
  · rw [slice_append_left (by omega)]
  · rw [slice_append_left (by omega)]

theorem inPlaceEncrypt_eq (pieces : Pieces lens k rem 0 m a b c) (len : m.length = lens.sum + (k * 16 + rem))
    (key nonce : Block) (ad : Octets) : inPlaceEncrypt key nonce ad lens (k * 16 + rem) m =
      encrypted aegisDuplex.masked (aegisAdUpdate (aegisInit key nonce) ad) a b c := by
  rw [inPlaceEncrypt, pieces.encryptAt_eq runs_encFinalBlockAt_inPlace key nonce ad (fits_inPlace len), poke_all]
  rw [length_encrypted _ pieces.dvd_first pieces.dvd_second pieces.third_lt, pieces.length_first, pieces.length_second,
    pieces.length_third, len]

theorem inPlaceDecrypt_eq (pieces : Pieces lens k rem 0 m a b c) (len : m.length = lens.sum + (k * 16 + rem))
    (key nonce : Block) (ad : Octets) (tag : Block) : inPlaceDecrypt key nonce ad lens (k * 16 + rem) tag m =
      decrypted (aegisAdUpdate (aegisInit key nonce) ad) tag a b c := by
  rw [inPlaceDecrypt, pieces.decryptAt_eq key nonce ad tag (fits_inPlace len), poke_all]
  rw [length_decrypted _ _ pieces.dvd_first pieces.dvd_second pieces.third_lt, pieces.length_first, pieces.length_second,
    pieces.length_third, len]

theorem separateEncrypt_eq (pieces : Pieces lens k rem 0 (m ++ out) a b c) (len : m.length = lens.sum + (k * 16 + rem))
    (same : out.length = m.length) (key nonce : Block) (ad : Octets) :
    separateEncrypt key nonce ad lens (k * 16 + rem) m out =
      encrypted aegisDuplex (aegisAdUpdate (aegisInit key nonce) ad) a b c := by
  rw [separateEncrypt, pieces.encryptAt_eq runs_encFinalBlockAt_apart key nonce ad (fits_separate len same)]
  simp only
  rw [drop_poke]
  rw [length_encrypted _ pieces.dvd_first pieces.dvd_second pieces.third_lt, pieces.length_first, pieces.length_second,
    pieces.length_third, ← len, List.length_append, same]

theorem separateDecrypt_eq (pieces : Pieces lens k rem 0 (m ++ out) a b c) (len : m.length = lens.sum + (k * 16 + rem))
    (same : out.length = m.length) (key nonce : Block) (ad : Octets) (tag : Block) :
    separateDecrypt key nonce ad lens (k * 16 + rem) tag m out =
      decrypted (aegisAdUpdate (aegisInit key nonce) ad) tag a b c := by
  rw [separateDecrypt, pieces.decryptAt_eq key nonce ad tag (fits_separate len same)]
  simp only
  rw [drop_poke]
  rw [length_decrypted _ _ pieces.dvd_first pieces.dvd_second pieces.third_lt, pieces.length_first, pieces.length_second,
    pieces.length_third, ← len, List.length_append, same]

end Message

/-! ### Texts -/

section Texts
variable {chunks : List Octets} (whole : ∀ c ∈ chunks, 16 ∣ c.length)
include whole

theorem pieces_chunks (last out : Octets) :
    Pieces (chunks.map List.length) (last.length / 16) (last.length % 16) 0 (chunks.flatten ++ last ++ out) chunks.flatten
      (last.take (last.length / 16 * 16)) (last.drop (last.length / 16 * 16)) := by
  have sum : (chunks.map List.length).sum = chunks.flatten.length := List.length_flatten.symm
  have split : last.length / 16 * 16 + last.length % 16 = last.length := Nat.div_add_mod' ..
  have rest : (last.drop (last.length / 16 * 16)).length = last.length % 16 := by rw [List.length_drop]; omega
  refine ⟨?_, ?_, ?_, ?_, Nat.mod_lt _ (by decide), ?_⟩
  · rw [sum, slice, List.drop_zero, List.append_assoc, List.take_left]
  · rw [sum, slice, Nat.zero_add, List.append_assoc, List.drop_left, List.take_append_of_le_length (by omega)]
  · rw [sum, slice, Nat.zero_add, ← List.drop_drop, List.append_assoc, List.drop_left,
      List.drop_append_of_le_length (by omega), List.take_left' rest]
  · intro n hn
    obtain ⟨c, hc, rfl⟩ := List.mem_map.mp hn
    exact whole c hc
  · simp only [sum, split, List.length_append]
    omega

/-- With separate buffers the functions on a memory, each with the loop that it has in the source, do what the
    functions on texts do. -/
theorem separate_eq_stream (last ad out : Octets) (nonce key : Block) (same : out.length = (chunks.flatten ++ last).length) :
    separateEncrypt key nonce ad (chunks.map List.length) last.length (chunks.flatten ++ last) out =
      (streamEncrypt chunks last ad nonce key).swap ∧
    ∀ tag, separateDecrypt key nonce ad (chunks.map List.length) last.length tag (chunks.flatten ++ last) out =
      ((streamDecrypt chunks last ad nonce key tag).ret, (streamDecrypt chunks last ad nonce key tag).dst) := by
  have split : last.length / 16 * 16 + last.length % 16 = last.length := Nat.div_add_mod' ..
  have pieces := pieces_chunks whole last out
  have len : (chunks.flatten ++ last).length = (chunks.map List.length).sum + (last.length / 16 * 16 + last.length % 16) := by
    rw [List.length_append, List.length_flatten, split]
  have count : (last.take (last.length / 16 * 16)).length / 16 = last.length / 16 := by
    rw [pieces.length_second, Nat.mul_div_cancel _ (by decide)]
  have front : ∀ st, aegisDuplex.encLoop (last.length / 16) st last =
      aegisDuplex.encLoop (last.length / 16) st (last.take (last.length / 16 * 16)) := fun st => by
    have cut := Duplex.encLoop_append (d := aegisDuplex) (S := st) pieces.length_second.ge (last.drop (last.length / 16 * 16))
    rwa [List.take_append_drop] at cut
  have front' : ∀ st, aegisDuplex.decLoop (last.length / 16) st last =
      aegisDuplex.decLoop (last.length / 16) st (last.take (last.length / 16 * 16)) := fun st => by
    have cut := Duplex.decLoop_append (d := aegisDuplex) (S := st) pieces.length_second.ge (last.drop (last.length / 16 * 16))
    rwa [List.take_append_drop] at cut
  refine ⟨?_, fun tag => ?_⟩
  · have run := separateEncrypt_eq pieces len same key nonce ad
    rw [split] at run
    rw [run]
    simp only [encrypted, count, streamEncrypt, encChunks_eq whole, aegisEncFinal_eq, Duplex.encText, front, Prod.swap_prod_mk]
  · have run := separateDecrypt_eq pieces len same key nonce ad tag
    rw [split] at run
    rw [run]
    have tail : (last.take (last.length / 16 * 16)).length + (last.drop (last.length / 16 * 16)).length = last.length := by
      rw [pieces.length_second, pieces.length_third, split]
    simp only [decrypted, count, tail, streamDecrypt, decChunks_eq whole, aegisDecFinal_eq, Duplex.decText, front']
    split <;> dsimp only

end Texts

/-! ### A last chunk with whole blocks -/

/-- A state from which it shows after some blocks of zeros whether the plaintext or the ciphertext was absorbed: in the
    tags after one block, with and without a rest, and after two, and then in the key stream. -/
structure Telltale where
  state : AegisState
  one : aegisTag (aegisDuplex.encLoop 1 state (List.replicate 16 0)).2 ≠
    aegisTag (aegisDuplex.masked.encLoop 1 state (List.replicate 16 0)).2
  rest : aegisTag (stateUpdate128 (aegisDuplex.encLoop 1 state (List.replicate 16 0)).2 (Word.zero 16)) ≠
    aegisTag (stateUpdate128 (aegisDuplex.masked.encLoop 1 state (List.replicate 16 0)).2 (Word.zero 16))
  two : aegisTag (aegisDuplex.encLoop 2 state (List.replicate 32 0)).2 ≠
    aegisTag (aegisDuplex.masked.encLoop 2 state (List.replicate 32 0)).2
  stream : (keyStream (aegisDuplex.encLoop 2 state (List.replicate 32 0)).2).get 0 ≠
    (keyStream (aegisDuplex.masked.encLoop 2 state (List.replicate 32 0)).2).get 0

/-- A state whose key stream is not zero. -/
def ones : Telltale where
  state := { zeroState with s1 := List.Vector.replicate 16 1 }
  one := by decide +kernel
  rest := by decide +kernel
  two := by decide +kernel
  stream := by decide +kernel

theorem load_zeros (n : Nat) : load 16 (List.replicate n (0 : UInt8)) = Word.zero 16 := by
  apply List.Vector.toList_injective
  rw [toList_load, List.take_replicate, List.length_replicate, List.replicate_append_replicate]
  show _ = List.replicate 16 0
  congr 1
  omega

theorem slice_replicate {x : UInt8} {n off k : Nat} (bound : off + k ≤ n) :
    slice (List.replicate n x) off k = List.replicate k x := by
  rw [slice, List.drop_replicate, List.take_replicate, Nat.min_eq_left (by omega)]

theorem encLoop_zeros (d : Duplex AegisState 16) (S : AegisState) (j k : Nat) :
    d.encLoop (j + k) S (List.replicate ((j + k) * 16) 0) =
      ((d.encLoop j S (List.replicate (j * 16) 0)).1 ++
          (d.encLoop k (d.encLoop j S (List.replicate (j * 16) 0)).2 (List.replicate (k * 16) 0)).1,
        (d.encLoop k (d.encLoop j S (List.replicate (j * 16) 0)).2 (List.replicate (k * 16) 0)).2) := by
  rw [Nat.add_mul, ← List.replicate_append_replicate, Duplex.encLoop_add, Duplex.encLoop_append (by simp),
    List.drop_left' (by simp)]

/-- The first octet that is written for zeros is that of the key stream. -/
theorem head_zeros {d : Duplex AegisState 16} (stream : d.keyStream = keyStream) (S : AegisState) {k rem : Nat}
    (some_ : 0 < k + rem) :
    ((d.encLoop k S (List.replicate (k * 16) 0)).1 ++
      (aegisDuplex.encTail (d.encLoop k S (List.replicate (k * 16) 0)).2 (List.replicate rem 0)).1).head? =
        some ((keyStream S).get 0) := by
  have first : ∀ w : Block, w.toList = w.get 0 :: w.toList.tail := fun w => by
    conv_lhs => rw [← List.Vector.cons_head_tail w, List.Vector.toList_cons]
    rw [List.Vector.get_zero, ← List.Vector.toList_tail]
  cases k with
  | zero =>
    obtain ⟨r, rfl⟩ : ∃ r, rem = r + 1 := ⟨rem - 1, by omega⟩
    simp only [Duplex.encLoop, List.nil_append, Duplex.encTail, List.length_replicate, Nat.succ_pos, gt_iff_lt, if_true]
    rw [mask, List.replicate_succ, first, List.zipWith_cons_cons, List.head?_cons, UInt8.zero_xor]
    rfl
  | succ k =>
    rw [Duplex.encLoop, load_zeros, stream, Word.xor_comm, Word.xor_zero]
    simp only
    rw [first, List.cons_append, List.cons_append, List.head?_cons]

/-- For zeros the tags differ, or the third block. -/
theorem encrypted_ne (t : Telltale) {k : Nat} (some_ : 0 < k) (rem : Nat) :
    encrypted aegisDuplex.masked t.state [] (List.replicate (k * 16) 0) (List.replicate rem 0) ≠
      encrypted aegisDuplex t.state [] (List.replicate (k * 16) 0) (List.replicate rem 0) := by
  intro same
  have pieces : ∀ d : Duplex AegisState 16, encrypted d t.state [] (List.replicate (k * 16) 0) (List.replicate rem 0) =
      (aegisTag (if 0 < rem then stateUpdate128 (d.encLoop k t.state (List.replicate (k * 16) 0)).2 (Word.zero 16)
          else (d.encLoop k t.state (List.replicate (k * 16) 0)).2),
        (d.encLoop k t.state (List.replicate (k * 16) 0)).1 ++
          (aegisDuplex.encTail (d.encLoop k t.state (List.replicate (k * 16) 0)).2 (List.replicate rem 0)).1) := fun d => by
    have tail : ∀ S : AegisState, (aegisDuplex.encTail S (List.replicate rem 0)).2 =
        if 0 < rem then stateUpdate128 S (Word.zero 16) else S := fun S => by
      simp only [Duplex.encTail, List.length_replicate, load_zeros]
      split <;> rfl
    have count : (List.replicate (k * 16) (0 : UInt8)).length / 16 = k := by
      rw [List.length_replicate, Nat.mul_div_cancel _ (by decide)]
    rw [encrypted, count, ← tail]
    rfl
  rw [pieces, pieces, Prod.mk.injEq] at same
  obtain ⟨tags, texts⟩ := same
  by_cases one : k = 1
  · subst one
    split at tags
    · exact t.rest tags.symm
    · exact t.one tags.symm
  obtain ⟨j, rfl⟩ : ∃ j, k = 2 + j := ⟨k - 2, by omega⟩
  by_cases more : 0 < j + rem
  · -- Past the first two blocks the key streams differ.
    simp only [encLoop_zeros, List.append_assoc] at texts
    have rest := (List.append_inj texts (by rw [Duplex.length_encLoop, Duplex.length_encLoop])).2
    have heads := congrArg List.head? rest
    rw [head_zeros rfl _ more, head_zeros rfl _ more] at heads
    exact t.stream (Option.some.inj heads).symm
  · obtain ⟨rfl, rfl⟩ : j = 0 ∧ rem = 0 := by omega
    exact t.two tags.symm

theorem exists_ad (key nonce : Block) (T : AegisState) : ∃ ad, aegisAdUpdate (aegisInit key nonce) ad = T := by
  obtain ⟨m1, m2, m3, m4, m5, reached⟩ := exists_absorb (aegisInit key nonce) T
  refine ⟨[m1, m2, m3, m4, m5].flatMap (·.toList), ?_⟩
  simp only [aegisAdUpdate_eq_absorb, List.flatMap_cons, List.flatMap_nil, blocks_word, blocks_nil]
  exact reached

/-- One buffer holds afterwards what separate buffers would, with the same tag or verdict, for every message
    and every cut before a last chunk of the given length, exactly when that chunk is shorter than a block. -/
theorem in_place_iff (last : Nat) :
    (∀ (key nonce : Block) (ad : Octets) (lens : List Nat) (m out : Octets), (∀ n ∈ lens, 16 ∣ n) →
      m.length = lens.sum + last → out.length = m.length →
        inPlaceEncrypt key nonce ad lens last m = separateEncrypt key nonce ad lens last m out ∧
        ∀ tag, inPlaceDecrypt key nonce ad lens last tag m = separateDecrypt key nonce ad lens last tag m out) ↔
      last < 16 := by
  obtain ⟨k, rem, few, rfl⟩ : ∃ k rem, rem < 16 ∧ last = k * 16 + rem :=
    ⟨last / 16, last % 16, Nat.mod_lt _ (by decide), (Nat.div_add_mod' last 16).symm⟩
  constructor
  · intro same
    by_contra long
    obtain ⟨ad, start⟩ := exists_ad (Word.zero 16) (Word.zero 16) ones.state
    have len : (List.replicate (k * 16 + rem) (0 : UInt8)).length = [].sum + (k * 16 + rem) := by simp
    obtain ⟨a, b, c, pieces, pieces'⟩ := exists_pieces (by simp) few len (List.replicate (k * 16 + rem) 0)
    have encrypts := (same (Word.zero 16) (Word.zero 16) ad [] _ (List.replicate (k * 16 + rem) 0) (by simp) len rfl).1
    have ha : a = [] := by rw [pieces.first]; rfl
    have hb : b = List.replicate (k * 16) 0 := by rw [pieces.second, slice_replicate (by simp)]
    have hc : c = List.replicate rem 0 := by rw [pieces.third, slice_replicate (by simp)]
    rw [inPlaceEncrypt_eq pieces len, separateEncrypt_eq pieces' len rfl, start, ha, hb, hc] at encrypts
    exact encrypted_ne ones (by omega) rem encrypts
  · intro short key nonce ad lens m out whole len same
    obtain rfl : k = 0 := by omega
    obtain ⟨a, b, c, pieces, pieces'⟩ := exists_pieces whole few len out
    refine ⟨?_, fun tag => ?_⟩
    · rw [inPlaceEncrypt_eq pieces len, separateEncrypt_eq pieces' len same]
      have none_ : b.length / 16 = 0 := by rw [pieces.length_second]
      simp only [encrypted, none_]
      rfl
    · rw [inPlaceDecrypt_eq pieces len, separateDecrypt_eq pieces' len same]

/-- Two blocks of zeros and one more as the last chunk: the last octet comes out different. -/
theorem in_place_blocks : ¬ ∀ (key nonce : Block) (ad : Octets) (lens : List Nat) (last : Nat) (m out : Octets),
    (∀ n ∈ lens, 16 ∣ n) → m.length = lens.sum + last → out.length = m.length →
      inPlaceEncrypt key nonce ad lens last m = separateEncrypt key nonce ad lens last m out ∧
      ∀ tag, inPlaceDecrypt key nonce ad lens last tag m = separateDecrypt key nonce ad lens last tag m out := by
  intro safe
  have same := (safe (Word.zero 16) (Word.zero 16) [] [] 33 (List.replicate 33 0) (List.replicate 33 0) (by simp) rfl rfl).1
  have octets := congrArg (fun r : Block × Octets => r.2.getD 32 0) same
  revert octets
  decide +kernel

end AegisTunnel
