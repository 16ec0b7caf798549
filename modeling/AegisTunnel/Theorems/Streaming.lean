import Mathlib.Data.FinEnum
import Mathlib.Data.Fintype.Vector
import Mathlib.Data.List.SplitLengths
import AegisTunnel.Theorems.Absorbed

/-! Streaming in chunks. A message may be cut at any block boundary. Associated data may be cut there too
    but nowhere else, since every call pads its own tail: for each other cut there is a text on which the
    chunks lead to another state than the whole. -/

namespace AegisTunnel
open Octets Reference

/-! ### The message -/

theorem aegisStart_eq (ad : Octets) (nonce key : Block) : aegisStart ad nonce key = aegisAdUpdate (aegisInit key nonce) ad := by
  rw [aegisStart_eq_absorb, aegisAdUpdate_eq_absorb]

theorem aegisEncUpdate_eq {c : Octets} (whole : 16 ∣ c.length) (st : AegisState) :
    aegisEncUpdate st c = aegisDuplex.encLoop (c.length / 16) st c := by
  have count : (c.length + 15) / 16 = c.length / 16 := by omega
  rw [aegisEncUpdate, count, encBlocks_eq]

theorem aegisDecUpdate_eq {c : Octets} (whole : 16 ∣ c.length) (st : AegisState) :
    aegisDecUpdate st c = aegisDuplex.decLoop (c.length / 16) st c := by
  have count : (c.length + 15) / 16 = c.length / 16 := by omega
  rw [aegisDecUpdate, count, decBlocks_eq]

theorem encText_chunks {chunks : List Octets} (whole : ∀ c ∈ chunks, 16 ∣ c.length) (st : AegisState) (last : Octets) :
    aegisDuplex.encText st (chunks.flatten ++ last) =
      ((encChunks st chunks).1 ++ (aegisDuplex.encText (encChunks st chunks).2 last).1,
        (aegisDuplex.encText (encChunks st chunks).2 last).2) := by
  induction chunks generalizing st with
  | nil => rfl
  | cons c cs ih =>
    rw [List.forall_mem_cons] at whole
    rw [List.flatten_cons, List.append_assoc,
      Duplex.encText_blocks_append (by decide) (Nat.div_mul_cancel whole.1).symm, ih whole.2]
    simp only [encChunks, aegisEncUpdate_eq whole.1, List.append_assoc]

theorem decText_chunks {chunks : List Octets} (whole : ∀ c ∈ chunks, 16 ∣ c.length) (st : AegisState) (last : Octets) :
    aegisDuplex.decText st (chunks.flatten ++ last) =
      ((decChunks st chunks).1 ++ (aegisDuplex.decText (decChunks st chunks).2 last).1,
        (aegisDuplex.decText (decChunks st chunks).2 last).2) := by
  induction chunks generalizing st with
  | nil => rfl
  | cons c cs ih =>
    rw [List.forall_mem_cons] at whole
    rw [List.flatten_cons, List.append_assoc,
      Duplex.decText_blocks_append (by decide) (Nat.div_mul_cancel whole.1).symm, ih whole.2]
    simp only [decChunks, aegisDecUpdate_eq whole.1, List.append_assoc]

section Chunks
variable {chunks : List Octets} (whole : ∀ c ∈ chunks, 16 ∣ c.length)
include whole

theorem dvd_flatten : 16 ∣ chunks.flatten.length := by
  rw [List.length_flatten]
  refine List.dvd_sum fun n hn => ?_
  obtain ⟨c, hc, rfl⟩ := List.mem_map.mp hn
  exact whole c hc

theorem encChunks_eq (st : AegisState) : encChunks st chunks = aegisDuplex.encLoop (chunks.flatten.length / 16) st chunks.flatten := by
  have text := encText_chunks whole st []
  rw [Duplex.encText_blocks_append (by decide) (Nat.div_mul_cancel (dvd_flatten whole)).symm] at text
  simp only [Duplex.encText_nil, List.append_nil] at text
  exact text.symm

theorem decChunks_eq (st : AegisState) : decChunks st chunks = aegisDuplex.decLoop (chunks.flatten.length / 16) st chunks.flatten := by
  have text := decText_chunks whole st []
  rw [Duplex.decText_blocks_append (by decide) (Nat.div_mul_cancel (dvd_flatten whole)).symm] at text
  simp only [Duplex.decText_nil, List.append_nil] at text
  exact text.symm

end Chunks

/-- A message in chunks of whole blocks and a last chunk of any length is encrypted as in one call; and
    decrypted with the same verdict, and on success to the same plaintext. -/
theorem message_streaming {chunks : List Octets} (whole : ∀ c ∈ chunks, 16 ∣ c.length) (last ad : Octets)
    (nonce key : Block) :
    streamEncrypt chunks last ad nonce key = aegisPureEncrypt (chunks.flatten ++ last) ad nonce key ∧
      ∀ tag, (streamDecrypt chunks last ad nonce key tag).ret =
          (aegisPureDecrypt (chunks.flatten ++ last) ad nonce key tag).ret ∧
        ((aegisPureDecrypt (chunks.flatten ++ last) ad nonce key tag).ret = 0 →
          (streamDecrypt chunks last ad nonce key tag).dst =
            (aegisPureDecrypt (chunks.flatten ++ last) ad nonce key tag).dst) := by
  constructor
  · rw [aegisPureEncrypt_eq, aegisStart_eq, encText_chunks whole]
    simp only [streamEncrypt, aegisEncFinal_eq]
  · intro tag
    rw [aegisPureDecrypt_eq, aegisStart_eq, decText_chunks whole]
    simp only [streamDecrypt, aegisDecFinal_eq]
    split
    · exact ⟨rfl, fun _ => rfl⟩
    · exact ⟨rfl, fun ok => absurd ok (by simp)⟩

/-- Two chunks of one block, and a last one of a block and a byte. -/
theorem message_streaming_chunks :
    streamEncrypt [List.replicate 16 1, List.replicate 16 2] (List.replicate 17 3) [4] (Word.zero 16) (Word.zero 16) =
      aegisPureEncrypt (List.replicate 16 1 ++ List.replicate 16 2 ++ List.replicate 17 3) [4] (Word.zero 16)
        (Word.zero 16) :=
  (message_streaming (by decide) (List.replicate 17 3) [4] (Word.zero 16) (Word.zero 16)).1

/-! ### Associated data cut at block boundaries -/

/-- Every chunk that data follows is a whole number of blocks. -/
def BlockCut (lens : List Nat) : Prop := ∀ pre n post, lens = pre ++ n :: post → 0 < post.sum → 16 ∣ n

theorem BlockCut.tail {n : Nat} {lens : List Nat} (cut : BlockCut (n :: lens)) : BlockCut lens :=
  fun pre k post split => cut (n :: pre) k post (by rw [split, List.cons_append])

theorem aegisAdUpdate_append {c : Octets} (whole : 16 ∣ c.length) (st : AegisState) (r : Octets) :
    aegisAdUpdate st (c ++ r) = aegisAdUpdate (aegisAdUpdate st c) r := by
  simp only [aegisAdUpdate_eq_absorb, blocks_append whole, absorb_append]

theorem adChunks_of_blockCut {chunks : List Octets} (cut : BlockCut (chunks.map List.length)) (st : AegisState) :
    adChunks st chunks = aegisAdUpdate st chunks.flatten := by
  induction chunks generalizing st with
  | nil => rfl
  | cons c cs ih =>
    rw [adChunks, List.foldl_cons, ← adChunks, ih cut.tail, List.flatten_cons]
    by_cases more : 0 < (cs.map List.length).sum
    · rw [aegisAdUpdate_append (cut [] c.length _ rfl more)]
    · have empty : cs.flatten = [] := by rw [← List.length_eq_zero_iff, List.length_flatten]; omega
      rw [empty, List.append_nil]
      rfl

/-! ### What the AES round does to a difference -/

theorem mixColumn_xor (a b c d a' b' c' d' : UInt8) :
    mixColumn (a ^^^ a') (b ^^^ b') (c ^^^ c') (d ^^^ d') = (mixColumn a b c d).xor (mixColumn a' b' c' d') := by
  apply Subtype.ext
  simp only [mixColumn, Word.xor, List.Vector.zipWith, mul3, xtime_xor, List.zipWith_cons_cons, List.zipWith_nil_left,
    List.cons.injEq, and_true]
  refine ⟨?_, ?_, ?_, ?_⟩ <;> ac_rfl

theorem aesMixColumns_xor (a b : Block) : aesMixColumns (a.xor b) = (aesMixColumns a).xor (aesMixColumns b) := by
  apply Subtype.ext
  simp only [aesMixColumns, Word.get_xor, mixColumn_xor]
  rfl

theorem aesShiftRows_xor (a b : Block) : aesShiftRows (a.xor b) = (aesShiftRows a).xor (aesShiftRows b) := by
  ext i
  simp only [aesShiftRows, List.Vector.get_map, Word.get_xor]

theorem aesMixColumns_injective : Function.Injective aesMixColumns :=
  Finite.injective_iff_surjective.mpr aesMixColumns_surjective

theorem aesShiftRows_injective : Function.Injective aesShiftRows :=
  Finite.injective_iff_surjective.mpr aesShiftRows_surjective

/-- The entries of the table for two bytes with a given difference do not have a given difference. -/
theorem aesSbox_difference : ∀ d : Fin 256, d ≠ 0 → ∃ m ∈ [1, 2], aesSbox.getD m 0 ^^^ aesSbox.getD (m ^^^ d.val) 0 ≠
    aesSbox.getD 0 0 ^^^ aesSbox.getD d.val 0 := by
  decide +kernel

theorem aesSbox_not_affine {a b : UInt8} (differ : a ≠ b) : ∃ m m' : UInt8,
    aesSbox.getD (a ^^^ m).toNat 0 ^^^ aesSbox.getD (b ^^^ m).toNat 0 ≠
      aesSbox.getD (a ^^^ m').toNat 0 ^^^ aesSbox.getD (b ^^^ m').toNat 0 := by
  have nonzero : (⟨(a ^^^ b).toNat, (a ^^^ b).toNat_lt⟩ : Fin 256) ≠ 0 := fun zero => by
    have : (a ^^^ b).toNat = 0 := congrArg Fin.val zero
    exact differ (UInt8.xor_eq_zero_iff.mp (UInt8.toNat_inj.mp this))
  obtain ⟨m, small, other⟩ := aesSbox_difference _ nonzero
  have byte : (UInt8.ofNat m).toNat = m := UInt8.toNat_ofNat_of_lt' (by
    rcases List.mem_cons.mp small with rfl | small
    · decide
    · rcases List.mem_singleton.mp small with rfl
      decide)
  -- Shift the two bytes so that the first becomes `m`, and so that it becomes zero.
  have second : ∀ x : UInt8, b ^^^ (a ^^^ x) = x ^^^ (a ^^^ b) := fun x => by
    rw [UInt8.xor_comm b, UInt8.xor_comm a x, UInt8.xor_assoc]
  refine ⟨a ^^^ UInt8.ofNat m, a ^^^ 0, ?_⟩
  rw [xor_cancel_left, xor_cancel_left, second, second, UInt8.toNat_xor, byte, UInt8.zero_xor]
  exact other

theorem xor_aesRound (x y : Block) :
    (aesRound x).xor (aesRound y) = aesMixColumns (aesShiftRows ((aesSubBytes x).xor (aesSubBytes y))) := by
  rw [aesShiftRows_xor, aesMixColumns_xor, aesRound, aesRound]

theorem aesRound_not_affine {a b : Block} (differ : a ≠ b) : ∃ m m' : Block,
    (aesRound (a.xor m)).xor (aesRound (b.xor m)) ≠ (aesRound (a.xor m')).xor (aesRound (b.xor m')) := by
  obtain ⟨i, byte⟩ : ∃ i, a.get i ≠ b.get i := by
    by_contra same
    push Not at same
    exact differ (List.Vector.ext same)
  obtain ⟨m, m', other⟩ := aesSbox_not_affine byte
  refine ⟨List.Vector.replicate 16 m, List.Vector.replicate 16 m', fun same => other ?_⟩
  rw [xor_aesRound, xor_aesRound] at same
  have bytes := congrArg (·.get i) (aesShiftRows_injective (aesMixColumns_injective same))
  simpa only [Word.get_xor, aesSubBytes, List.Vector.get_map, List.Vector.get_replicate] using bytes

/-! ### States that stay apart -/

theorem xor_right_cancel {n : Nat} {a b c : Word n} (same : a.xor c = b.xor c) : a = b := by
  rw [← Word.xor_xor_cancel a c, same, Word.xor_xor_cancel]

theorem xor_exchange {n : Nat} {a b x y : Word n} (same : a.xor x = b.xor y) : x.xor y = a.xor b := by
  apply xor_right_cancel (c := y)
  rw [Word.xor_xor_cancel]
  apply List.Vector.ext
  intro i
  have byte := congrArg (·.get i) same
  simp only [Word.get_xor] at byte ⊢
  rw [UInt8.xor_assoc, ← byte, xor_cancel_left]

/-- No block brings the two states together. -/
def Apart (S T : AegisState) : Prop := ∀ m, update S m ≠ update T m

theorem Apart.ne {S T : AegisState} (apart : Apart S T) : S ≠ T := fun same => apart (Word.zero 16) (same ▸ rfl)

/-- Whether two states come together does not depend on the block. -/
theorem not_apart {S T : AegisState} (together : ¬ Apart S T) : S.s0.xor (aesRound S.s4) = T.s0.xor (aesRound T.s4) ∧
    S.s1.xor (aesRound S.s0) = T.s1.xor (aesRound T.s0) ∧ S.s2.xor (aesRound S.s1) = T.s2.xor (aesRound T.s1) ∧
    S.s3.xor (aesRound S.s2) = T.s3.xor (aesRound T.s2) ∧ S.s4.xor (aesRound S.s3) = T.s4.xor (aesRound T.s3) := by
  unfold Apart at together
  push Not at together
  obtain ⟨m, same⟩ := together
  simp only [update, AegisState.mk.injEq] at same
  exact ⟨xor_right_cancel same.1, same.2⟩

/-- A block can be chosen such that the states stay apart after it. -/
theorem Apart.exists_update {S T : AegisState} (apart : Apart S T) : ∃ m, Apart (update S m) (update T m) := by
  by_contra together
  push Not at together
  have merge := fun m => not_apart (together m)
  let a := S.s0.xor (aesRound S.s4)
  let b := T.s0.xor (aesRound T.s4)
  -- The second words do not depend on the block, so the rounds of the first words differ by a constant.
  have constant : ∀ m : Block, (aesRound (a.xor m)).xor (aesRound (b.xor m)) =
      (S.s1.xor (aesRound S.s0)).xor (T.s1.xor (aesRound T.s0)) := fun m => xor_exchange (merge m).2.1
  have same0 : a = b := by
    by_contra differ
    obtain ⟨m, m', other⟩ := aesRound_not_affine differ
    exact other ((constant m).trans (constant m').symm)
  -- With the same first word the other words are the same one after the other.
  obtain ⟨-, h1, h2, h3, h4⟩ := merge (Word.zero 16)
  have start : (update S (Word.zero 16)).s0 = (update T (Word.zero 16)).s0 := congrArg (Word.xor · _) same0
  have same1 := xor_right_cancel (start ▸ h1)
  have same2 := xor_right_cancel (same1 ▸ h2)
  have same3 := xor_right_cancel (same2 ▸ h3)
  have same4 := xor_right_cancel (same3 ▸ h4)
  apply apart (Word.zero 16)
  show (⟨_, _, _, _, _⟩ : AegisState) = ⟨_, _, _, _, _⟩
  rw [AegisState.mk.injEq]
  exact ⟨start, same1, same2, same3, same4⟩

theorem Apart.exists_absorb {S T : AegisState} (apart : Apart S T) (k : Nat) :
    ∃ ms, ms.length = k ∧ Apart (absorb S ms) (absorb T ms) := by
  induction k generalizing S T with
  | zero => exact ⟨[], rfl, apart⟩
  | succ k ih =>
    obtain ⟨m, next⟩ := apart.exists_update
    obtain ⟨ms, len, last⟩ := ih next
    exact ⟨m :: ms, by rw [List.length_cons, len], last⟩

theorem length_octets (ms : List Block) : (ms.flatMap (·.toList)).length = 16 * ms.length := by
  have := length_zeroPadded ms 0
  rwa [zeroPadded, List.replicate_zero, List.append_nil] at this

/-- Some text of a given length leads the two states to different ones. -/
theorem Apart.exists_text {S T : AegisState} (apart : Apart S T) (n : Nat) :
    ∃ text : Octets, text.length = n ∧ aegisAdUpdate S text ≠ aegisAdUpdate T text := by
  by_cases some_ : 0 < n
  · obtain ⟨ms, len, last⟩ := apart.exists_absorb ((n - 1) / 16)
    have some_' : 0 < n - 16 * ms.length := by omega
    refine ⟨zeroPadded ms (n - 16 * ms.length), by rw [length_zeroPadded]; omega, ?_⟩
    rw [aegisAdUpdate_eq_absorb, aegisAdUpdate_eq_absorb, blocks_zeroPadded ms some_' (by omega), absorb_append,
      absorb_append]
    exact last _
  · exact ⟨[], by simp; omega, apart.ne⟩

/-! ### Associated data cut elsewhere -/

/-- The block with a byte `x` at place `p`. -/
def byteBlock (p : Nat) (x : UInt8) : Block := load 16 (List.replicate p 0 ++ [x])

theorem blocks_last_byte (n : Nat) (x : UInt8) :
    blocks (List.replicate n 0 ++ [x]) = List.replicate (n / 16) (Word.zero 16) ++ [byteBlock (n % 16) x] := by
  have text : List.replicate n 0 ++ [x] =
      (List.replicate (n / 16) (Word.zero 16)).flatMap (·.toList) ++ (List.replicate (n % 16) 0 ++ [x]) := by
    rw [← List.append_assoc]
    congr 1
    apply List.eq_replicate_iff.mpr ⟨?_, fun b mem => ?_⟩ |>.symm
    · rw [List.length_append, length_octets, List.length_replicate, List.length_replicate]
      omega
    · rcases List.mem_append.mp mem with mem | mem
      · obtain ⟨w, isZero, mem⟩ := List.mem_flatMap.mp mem
        rw [List.eq_of_mem_replicate isZero] at mem
        exact List.eq_of_mem_replicate mem
      · exact List.eq_of_mem_replicate mem
  rw [text, blocks_append (length_octets _ ▸ Nat.dvd_mul_right 16 _), blocks_octets]
  congr 1
  have := Nat.mod_lt n (by decide : 0 < 16)
  exact blocks_short (by simp) (by simp; omega)

theorem get_byteBlock {p q : Nat} (hp : p < 16) (hq : q < 16) (x : UInt8) :
    (byteBlock p x).get ⟨q, hq⟩ = if q = p then x else 0 := by
  have entry : (byteBlock p x).get ⟨q, hq⟩ = (byteBlock p x).toList.get ⟨q, by simpa using hq⟩ := rfl
  rw [entry]
  rcases Nat.lt_trichotomy q p with less | rfl | more
  · simp [byteBlock, List.getElem_append, less, less.ne, hq]
  · simp [byteBlock, hq]
  · simp [byteBlock, List.getElem_append, more.ne', Nat.not_le.mpr more, hq]

/-- A byte that two runs absorb at different places keeps their states apart, for some value of it. -/
theorem exists_apart (Q V : AegisState) {p p' : Nat} (hp : p < 16) (hp' : p' < 16) (differ : p ≠ p') :
    ∃ x, Apart (update Q (byteBlock p x)) (update V (byteBlock p' x)) := by
  by_contra together
  push Not at together
  have byte := fun x => congrArg (·.get ⟨p, hp⟩) (not_apart (together x)).1
  simp only [update, Word.get_xor, get_byteBlock hp, get_byteBlock hp', if_true, if_neg differ] at byte
  have same := (UInt8.xor_left_inj _).mp ((byte 0).trans (byte 1).symm)
  exact absurd ((UInt8.xor_right_inj _).mp same) (by decide)

/-- Data follows a place that is no block boundary, where `a` octets come before the list. -/
def OffBlock (a : Nat) (lens : List Nat) : Prop := ∃ pre post, lens = pre ++ post ∧ 0 < post.sum ∧ ¬ 16 ∣ a + pre.sum

theorem dvd_of_not_offBlock {a : Nat} {lens post : List Nat} (h : ¬ OffBlock a lens) (pre : List Nat)
    (split : lens = pre ++ post) (more : 0 < post.sum) : 16 ∣ a + pre.sum := by
  by_contra odd
  exact h ⟨pre, post, split, more, odd⟩

theorem blockCut_of_not_offBlock {a : Nat} {lens : List Nat} (h : ¬ OffBlock a lens) : BlockCut lens := by
  rintro pre n post rfl more
  have before := dvd_of_not_offBlock h pre rfl (by rw [List.sum_cons]; omega)
  have after := dvd_of_not_offBlock h (pre ++ [n]) (by simp) more
  rw [List.sum_append, List.sum_singleton, ← Nat.add_assoc] at after
  exact (Nat.dvd_add_right before).mp after

theorem offBlock_of_not_blockCut {lens : List Nat} (h : ¬ BlockCut lens) : OffBlock 0 lens := by
  by_contra aligned
  exact h (blockCut_of_not_offBlock aligned)

/-- The last such place. -/
theorem exists_last_offBlock {lens : List Nat} {a : Nat} (h : OffBlock a lens) :
    ∃ pre n post, lens = pre ++ n :: post ∧ ¬ 16 ∣ a + pre.sum ∧ 0 < n ∧ (post.sum = 0 ∨ 16 ∣ a + pre.sum + n) ∧
      BlockCut post := by
  induction lens generalizing a with
  | nil =>
    obtain ⟨pre, post, split, more, -⟩ := h
    rw [(List.append_eq_nil_iff.mp split.symm).2] at more
    exact absurd more (by simp)
  | cons n lens ih =>
    by_cases later : OffBlock (a + n) lens
    · obtain ⟨pre, k, post, rfl, odd, some_, aligned, cut⟩ := ih later
      exact ⟨n :: pre, k, post, rfl, by rwa [List.sum_cons, ← Nat.add_assoc], some_,
        by rwa [List.sum_cons, ← Nat.add_assoc a], cut⟩
    · have after : 0 < lens.sum → 16 ∣ a + n := fun more => by simpa using dvd_of_not_offBlock later [] rfl more
      have odd : ¬ 16 ∣ a := by
        obtain ⟨pre, post, split, more, odd⟩ := h
        cases pre with
        | nil => simpa using odd
        | cons k pre =>
          obtain ⟨rfl, rfl⟩ := List.cons.inj split
          rw [List.sum_cons, ← Nat.add_assoc] at odd
          exact absurd (dvd_of_not_offBlock later pre rfl more) odd
      refine ⟨[], n, lens, rfl, by simpa using odd, ?_, ?_, blockCut_of_not_offBlock later⟩
      · obtain ⟨pre, post, split, more, -⟩ := h
        have total := congrArg List.sum split
        rw [List.sum_cons, List.sum_append] at total
        by_contra zero
        obtain rfl : n = 0 := by omega
        exact odd (after (by omega))
      · by_cases rest : 0 < lens.sum
        · exact .inr (by simpa using after rest)
        · exact .inl (by omega)

theorem exists_split {lens : List Nat} (uneven : ¬ BlockCut lens) : ∃ pre n post, lens = pre ++ n :: post ∧
    ¬ 16 ∣ pre.sum ∧ 0 < n ∧ (post.sum = 0 ∨ 16 ∣ pre.sum + n) ∧ BlockCut post := by
  simpa only [Nat.zero_add] using exists_last_offBlock (offBlock_of_not_blockCut uneven)

theorem flatten_zeros (lens : List Nat) :
    (lens.map fun n => List.replicate n (0 : UInt8)).flatten = List.replicate lens.sum 0 := by
  induction lens with
  | nil => rfl
  | cons n lens ih => rw [List.map_cons, List.flatten_cons, ih, List.replicate_append_replicate, List.sum_cons]

theorem aegisAdUpdate_last_byte (S : AegisState) (n : Nat) (x : UInt8) : aegisAdUpdate S (List.replicate n 0 ++ [x]) =
    update (absorb S (List.replicate (n / 16) (Word.zero 16))) (byteBlock (n % 16) x) := by
  rw [aegisAdUpdate_eq_absorb, blocks_last_byte, absorb_append, absorb_cons, absorb_nil]

theorem exists_chunks {lens : List Nat} (uneven : ¬ BlockCut lens) (st : AegisState) : ∃ chunks : List Octets,
    chunks.map List.length = lens ∧ adChunks st chunks ≠ aegisAdUpdate st chunks.flatten := by
  obtain ⟨pre, n, post, rfl, odd, some_, aligned, cut⟩ := exists_split uneven
  let zeros := pre.map fun n => List.replicate n (0 : UInt8)
  -- The last byte of the chunk is absorbed at one place by its own call and at another one in the whole.
  obtain ⟨x, apart⟩ := exists_apart
    (absorb (adChunks st zeros) (List.replicate ((n - 1) / 16) (Word.zero 16)))
    (absorb st (List.replicate ((pre.sum + (n - 1)) / 16) (Word.zero 16)))
    (Nat.mod_lt (n - 1) (by decide)) (Nat.mod_lt (pre.sum + (n - 1)) (by decide)) (by omega)
  rw [← aegisAdUpdate_last_byte, ← aegisAdUpdate_last_byte, ← List.replicate_append_replicate, List.append_assoc,
    ← flatten_zeros] at apart
  obtain ⟨text, len, differ⟩ := apart.exists_text post.sum
  have lengths : (post.splitLengths text).map List.length = post :=
    List.map_splitLengths_length text post (by rw [len])
  have flat : (post.splitLengths text).flatten = text := List.flatten_splitLengths text post (by rw [len])
  let c := List.replicate (n - 1) 0 ++ [x]
  have hc : c.length = n := by simp [c]; omega
  refine ⟨zeros ++ c :: post.splitLengths text, ?_, fun same => differ ?_⟩
  · rw [List.map_append, List.map_cons, lengths, hc]
    simp [zeros, Function.comp_def]
  · have chunked : adChunks st (zeros ++ c :: post.splitLengths text) =
        aegisAdUpdate (aegisAdUpdate (adChunks st zeros) c) text := by
      rw [adChunks, List.foldl_append, List.foldl_cons, ← adChunks, ← adChunks, adChunks_of_blockCut (lengths.symm ▸ cut), flat]
    have whole : aegisAdUpdate st (zeros ++ c :: post.splitLengths text).flatten =
        aegisAdUpdate (aegisAdUpdate st (zeros.flatten ++ c)) text := by
      rw [List.flatten_append, List.flatten_cons, flat, ← List.append_assoc]
      rcases aligned with none_ | aligned
      · obtain rfl : text = [] := List.length_eq_zero_iff.mp (len.trans none_)
        rw [List.append_nil]
        rfl
      · refine aegisAdUpdate_append ?_ st text
        rw [List.length_append, hc, flatten_zeros, List.length_replicate]
        exact aligned
    rw [← chunked, ← whole, same]

/-- Calls of `aegis_ad_update` for chunks of the given lengths lead to the state of one call with the whole
    data, whatever the data, exactly when every chunk that data follows is a whole number of blocks. -/
theorem ad_streaming_iff (lens : List Nat) :
    (∀ (st : AegisState) (chunks : List Octets), chunks.map List.length = lens →
      adChunks st chunks = aegisAdUpdate st chunks.flatten) ↔ BlockCut lens := by
  constructor
  · intro streams
    by_contra uneven
    obtain ⟨chunks, lengths, differ⟩ := exists_chunks uneven zeroState
    exact differ (streams zeroState chunks lengths)
  · intro cut st chunks lengths
    exact adChunks_of_blockCut (lengths ▸ cut) st

/-- Three chunks of ten bytes, as in the test of the streaming functions. -/
theorem ad_streaming_tens : ¬ ∀ (st : AegisState) (chunks : List Octets), adChunks st chunks = aegisAdUpdate st chunks.flatten := by
  intro streams
  have := streams zeroState [List.replicate 10 1, List.replicate 10 2, List.replicate 10 3]
  revert this
  decide +kernel

end AegisTunnel
