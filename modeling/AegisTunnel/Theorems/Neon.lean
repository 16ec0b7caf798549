import AegisTunnel.Crypto.Neon
import AegisTunnel.Theorems.Accel

/-! The plain NEON cipher computes what the pure C cipher computes, state by state. It keeps within its
    buffers as long as the last chunk fits in one vector, and in the decrypt direction fills it. -/

namespace AegisTunnel
open Octets

/-! ### The AES round -/

/-- One lane of `vbslq_u8`. -/
def selectByte (mask a b : UInt8) : UInt8 := (mask &&& a) ||| (~~~mask &&& b)

theorem selectByte_ones (a b : UInt8) : selectByte 0xff a b = a := by
  have ones : ∀ a : UInt8, 0xff &&& a = a := fun a => UInt8.and_comm a _ ▸ UInt8.and_neg_one
  have none_ : ∀ a : UInt8, ~~~0xff &&& a = 0 := fun a => UInt8.zero_and
  rw [selectByte, ones, none_, UInt8.or_zero]

theorem selectByte_zero (a b : UInt8) : selectByte 0 a b = b := by
  have ones : ∀ a : UInt8, ~~~0 &&& a = a := fun a => UInt8.and_comm a _ ▸ UInt8.and_neg_one
  rw [selectByte, ones, UInt8.zero_and, UInt8.zero_or]

/-- One lane of the look-up in the quarter of the table from `off` on. -/
def quadByte (off : Nat) (i : UInt8) : UInt8 := ((sboxQuad off).toList.flatMap (·.toList)).getD i.toNat 0

theorem sboxQuad_octets : ∀ off ∈ [0, 64, 128, 192],
    (sboxQuad off).toList.flatMap (·.toList) = (aesSbox.drop off).take 64 := by
  decide +kernel

theorem quadByte_eq {off : Nat} (quarter : off ∈ [0, 64, 128, 192]) {i x : UInt8} (at_ : x.toNat = off + i.toNat)
    (small : i.toNat < 64) : quadByte off i = aesSbox.getD x.toNat 0 := by
  rw [quadByte, sboxQuad_octets off quarter, at_, List.getD_eq_getElem?_getD, List.getD_eq_getElem?_getD,
    List.getElem?_take_of_lt small, List.getElem?_drop]

/-- The four look-ups and selections of `aes_sub_bytes_neon`, for one lane. -/
def subByteLane (x : UInt8) : UInt8 :=
  let eq := fun k => if x >>> 6 = k then (0xff : UInt8) else 0
  selectByte (~~~(eq 0 ||| eq 1 ||| eq 2)) (quadByte 192 (x - 192))
    (selectByte (eq 2) (quadByte 128 (x - 128)) (selectByte (eq 1) (quadByte 64 (x - 64)) (quadByte 0 x)))

theorem get_aesSubBytesNeon (s : Block) (i : Fin 16) : (aesSubBytesNeon s).get i = subByteLane (s.get i) := by
  simp only [aesSubBytesNeon, vbslqU8, vorrqU8, vandqU8, vmvnqU8, vceqqU8, vqtbl4qU8, vsubqU8, vshrqNU8, vdupqNU8, Word.and,
    List.Vector.zipWith_get, List.Vector.get_map, List.Vector.get_replicate, subByteLane, selectByte, quadByte]

theorem subByteLane_eq (x : UInt8) : subByteLane x = aesSbox.getD x.toNat 0 := by
  have bound := x.toNat_lt
  have part : ∀ {k : UInt8}, x.toNat / 64 = k.toNat → x >>> 6 = k := fun h =>
    UInt8.toNat_inj.mp ((by simp [Nat.shiftRight_eq_div_pow] : (x >>> 6).toNat = x.toNat / 64).trans h)
  have less : ∀ {k : UInt8}, k.toNat ≤ x.toNat → (x - k).toNat = x.toNat - k.toNat := fun h =>
    UInt8.toNat_sub_of_le _ _ (UInt8.le_iff_toNat_le.mpr h)
  -- The two high bits say which of the look-ups is selected.
  obtain h | h | h | h : x.toNat / 64 = 0 ∨ x.toNat / 64 = 1 ∨ x.toNat / 64 = 2 ∨ x.toNat / 64 = 3 := by omega
  · have at_ : x >>> 6 = 0 := part h
    simp only [subByteLane, at_]
    show selectByte 0 _ (selectByte 0 _ (selectByte 0 _ _)) = _
    rw [selectByte_zero, selectByte_zero, selectByte_zero]
    exact quadByte_eq (by simp) (Nat.zero_add _).symm (by omega)
  · have at_ : x >>> 6 = 1 := part h
    have look : (x - 64).toNat = x.toNat - 64 := less (by simp; omega)
    simp only [subByteLane, at_]
    show selectByte 0 _ (selectByte 0 _ (selectByte 0xff _ _)) = _
    rw [selectByte_zero, selectByte_zero, selectByte_ones]
    exact quadByte_eq (by simp) (by omega) (by omega)
  · have at_ : x >>> 6 = 2 := part h
    have look : (x - 128).toNat = x.toNat - 128 := less (by simp; omega)
    simp only [subByteLane, at_]
    show selectByte 0 _ (selectByte 0xff _ _) = _
    rw [selectByte_zero, selectByte_ones]
    exact quadByte_eq (by simp) (by omega) (by omega)
  · have at_ : x >>> 6 = 3 := part h
    have look : (x - 192).toNat = x.toNat - 192 := less (by simp; omega)
    simp only [subByteLane, at_]
    show selectByte 0xff _ _ = _
    rw [selectByte_ones]
    exact quadByte_eq (by simp) (by omega) (by omega)

theorem xtimeNeon_eq_fin : ∀ n : Fin 256, xtimeNeon (UInt8.ofNat n.val) = xtime (UInt8.ofNat n.val) := by
  decide +kernel

theorem aesSubBytesNeon_eq (s : Block) : aesSubBytesNeon s = aesSubBytes s := by
  apply List.Vector.ext
  intro i
  rw [get_aesSubBytesNeon, subByteLane_eq, aesSubBytes, List.Vector.get_map]

theorem getD_toList (s : Block) (i : Fin 16) : s.toList.getD i.val 0 = s.get i := by
  have bound : i.val < s.toList.length := by rw [s.toList_length]; exact i.isLt
  rw [List.getD_eq_getElem?_getD, List.getElem?_eq_getElem bound]
  rfl

theorem aesShiftRowsNeon_eq (s : Block) : aesShiftRowsNeon s = aesShiftRows s := by
  apply List.Vector.ext
  intro i
  have small : (UInt8.ofNat (srPerm.get i).val).toNat = (srPerm.get i).val :=
    UInt8.toNat_ofNat_of_lt' (Nat.lt_trans (srPerm.get i).isLt (by decide))
  rw [aesShiftRowsNeon, vqtbl1qU8, aesShiftRows, List.Vector.get_map, List.Vector.get_map, List.Vector.get_map, small,
    getD_toList]

theorem xtimeNeon_eq (x : UInt8) : xtimeNeon x = xtime x := by
  have := xtimeNeon_eq_fin ⟨x.toNat, x.toNat_lt⟩
  simpa only [UInt8.ofNat_toNat] using this

theorem mixColumnNeon_eq (a0 a1 a2 a3 : UInt8) : mixColumnNeon a0 a1 a2 a3 = mixColumn a0 a1 a2 a3 := by
  simp only [mixColumnNeon, mixColumn, xtimeNeon_eq, mul3]
  rfl

theorem aesMixColumnsNeon_eq (s : Block) : aesMixColumnsNeon s = aesMixColumns s := by
  simp only [aesMixColumnsNeon, columnNeon, mixColumnNeon_eq, aesMixColumns, ← getD_toList]
  rfl

theorem aesRoundNeon_eq : aesRoundNeon = aesRound := by
  funext s
  simp only [aesRoundNeon, aesMixColumnsNeon_eq, aesShiftRowsNeon_eq, aesSubBytesNeon_eq, aesRound]

/-! ### The state -/

theorem stateUpdate128Neon_eq : stateUpdate128Neon = stateUpdate128 := by
  funext S m
  simp only [stateUpdate128Neon, aesRoundNeon_eq]
  rfl

theorem keyStreamNeon_eq : keyStreamNeon = keyStream := rfl

theorem aegis128NeonInit_eq : aegis128NeonInit = aegisInit := by
  funext key nonce
  simp only [aegis128NeonInit, stateUpdate128Neon_eq]
  rfl

theorem neonXor5_eq (S : AegisState) : neonXor5 S = xor5Blocks S.s0 S.s1 S.s2 S.s3 S.s4 := by
  apply List.Vector.ext
  intro i
  simp only [neonXor5, veorqU8, xor5Blocks, Word.get_xor, UInt8.xor_assoc]

theorem neonTag_eq (S : AegisState) : neonTag S = aegisTag S := by
  have rounds : ∀ k S tmp, neonTagRounds k S tmp = tagRounds k S tmp := by
    intro k
    induction k with
    | zero => intro S tmp; rfl
    | succ k ih => intro S tmp; rw [neonTagRounds, ih, tagRounds, stateUpdate128Neon_eq, neonXor5_eq]
  rw [neonTag, rounds, neonXor5_eq, aegisTag]

/-! ### Loops and update functions -/

theorem vld1qU8_of_le {p : Octets} (full : 16 ≤ p.length) : vld1qU8 p = some (load 16 p) := if_pos full

theorem memcpyPad_of_le {p : Octets} (few : p.length ≤ 16) : memcpyPad p = some (load 16 p) := if_pos few

theorem neonAdLoop_eq {k : Nat} {ad : Octets} (full : k * 16 ≤ ad.length) (S : AegisState) :
    neonAdLoop k S ad = some (adLoop k S ad) := by
  induction k generalizing S ad with
  | zero => rfl
  | succ k ih =>
    rw [neonAdLoop, vld1qU8_of_le (by omega), Option.bind_eq_bind, Option.bind_some,
      ih (by rw [List.length_drop]; omega), adLoop, stateUpdate128Neon_eq]

theorem aegis128NeonAdUpdate_eq (st : AegisState) (ad : Octets) : aegis128NeonAdUpdate st ad = some (aegisAdUpdate st ad) := by
  simp only [aegis128NeonAdUpdate, neonAdLoop_eq (Duplex.blocks_le (n := 16) ad), Option.bind_eq_bind, Option.bind_some,
    aegisAdUpdate]
  split
  · rw [memcpyPad_of_le (Duplex.length_rest (n := 16) (by decide) ad).le, Option.bind_some, stateUpdate128Neon_eq]
  · rfl

theorem neonEncBlocks_eq {k : Nat} {src : Octets} (full : k * 16 ≤ src.length) (S : AegisState) :
    neonEncBlocks k S src = some (encBlocks k S src) := by
  induction k generalizing S src with
  | zero => rfl
  | succ k ih =>
    have rest : k * 16 ≤ (src.drop 16).length := by rw [List.length_drop]; omega
    simp only [neonEncBlocks, vld1qU8_of_le (by omega : 16 ≤ src.length), Option.bind_eq_bind, Option.bind_some, ih rest,
      stateUpdate128Neon_eq, keyStreamNeon_eq]
    rfl

theorem neonDecBlocks_eq {k : Nat} {src : Octets} (full : k * 16 ≤ src.length) (S : AegisState) :
    neonDecBlocks k S src = some (decBlocks k S src) := by
  induction k generalizing S src with
  | zero => rfl
  | succ k ih =>
    have rest : k * 16 ≤ (src.drop 16).length := by rw [List.length_drop]; omega
    simp only [neonDecBlocks, vld1qU8_of_le (by omega : 16 ≤ src.length), Option.bind_eq_bind, Option.bind_some, ih rest,
      stateUpdate128Neon_eq, keyStreamNeon_eq]
    rfl

theorem neonAdChunks_eq (st : AegisState) (chunks : List Octets) : neonAdChunks st chunks = some (adChunks st chunks) := by
  induction chunks generalizing st with
  | nil => rfl
  | cons c cs ih =>
    rw [neonAdChunks, List.foldlM_cons, aegis128NeonAdUpdate_eq, Option.bind_eq_bind, Option.bind_some]
    exact ih _

theorem neonEncChunks_eq {chunks : List Octets} (whole : ∀ c ∈ chunks, 16 ∣ c.length) (st : AegisState) :
    neonEncChunks st chunks = some (encChunks st chunks) := by
  induction chunks generalizing st with
  | nil => rfl
  | cons c cs ih =>
    rw [List.forall_mem_cons] at whole
    have full : (c.length + 15) / 16 * 16 ≤ c.length := by have := whole.1; omega
    rw [neonEncChunks, aegis128NeonEncUpdate, neonEncBlocks_eq full, Option.bind_eq_bind, Option.bind_some, ih whole.2]
    rfl

theorem neonDecChunks_eq {chunks : List Octets} (whole : ∀ c ∈ chunks, 16 ∣ c.length) (st : AegisState) :
    neonDecChunks st chunks = some (decChunks st chunks) := by
  induction chunks generalizing st with
  | nil => rfl
  | cons c cs ih =>
    rw [List.forall_mem_cons] at whole
    have full : (c.length + 15) / 16 * 16 ≤ c.length := by have := whole.1; omega
    rw [neonDecChunks, aegis128NeonDecUpdate, neonDecBlocks_eq full, Option.bind_eq_bind, Option.bind_some, ih whole.2]
    rfl

/-! ### The final functions -/

section Final
variable {src : Octets}

/-- A text of at most a block is masked as one vector: it is a whole block or a rest. -/
theorem encText_vector (some_ : 0 < src.length) (few : src.length ≤ 16) (st : AegisState) : aegisDuplex.encText st src =
    (((load 16 src).xor (keyStream st)).toList.take src.length, stateUpdate128 st (load 16 src)) := by
  rcases Nat.lt_or_eq_of_le few with less | full
  · simp only [Duplex.encText, Nat.div_eq_of_lt less, Duplex.encLoop, Nat.zero_mul, List.drop_zero, Duplex.encTail,
      gt_iff_lt, some_, if_true, List.nil_append, take_toList_xor_load _ few]
    rfl
  · have block := Duplex.encText_blocks_append (d := aegisDuplex) (S := st) (k := 1) (by decide) full []
    rw [List.append_nil, Duplex.encText_nil] at block
    rw [block, take_toList_xor_load _ few, mask_eq_toList _ full]
    simp only [Duplex.encLoop, List.append_nil]
    rfl

theorem decText_vector (some_ : 0 < src.length) (few : src.length ≤ 16) (st : AegisState) : aegisDuplex.decText st src =
    (((load 16 src).xor (keyStream st)).toList.take src.length,
      stateUpdate128 st (load 16 (((load 16 src).xor (keyStream st)).toList.take src.length))) := by
  rw [take_toList_xor_load _ few]
  rcases Nat.lt_or_eq_of_le few with less | full
  · simp only [Duplex.decText, Nat.div_eq_of_lt less, Duplex.decLoop, Nat.zero_mul, List.drop_zero, Duplex.decTail,
      gt_iff_lt, some_, if_true, List.nil_append]
    rfl
  · have block := Duplex.decText_blocks_append (d := aegisDuplex) (S := st) (k := 1) (by decide) full []
    rw [List.append_nil, Duplex.decText_nil] at block
    rw [block, mask_eq_toList _ full, load_toList]
    simp only [Duplex.decLoop, List.append_nil]
    rfl

theorem aegis128NeonEncFinal_eq (st : AegisState) (src : Octets) :
    aegis128NeonEncFinal st src = if src.length ≤ 16 then some (aegisEncFinal st src) else none := by
  by_cases some_ : 0 < src.length
  · simp only [aegis128NeonEncFinal, gt_iff_lt, some_, if_true, memcpyPad]
    split
    next few =>
      rw [aegisEncFinal_eq, encText_vector some_ few]
      simp only [Option.bind_eq_bind, Option.bind_some, stateUpdate128Neon_eq, keyStreamNeon_eq, neonTag_eq, veorqU8]
    next => rfl
  · obtain rfl : src = [] := List.length_eq_zero_iff.mp (by omega)
    rw [aegisEncFinal_eq, Duplex.encText_nil]
    simp [aegis128NeonEncFinal, neonTag_eq]

/-- The load of sixteen octets needs as many, the array has room for no more. -/
theorem aegis128NeonDecFinal_eq (st : AegisState) (src : Octets) (tag : Block) : aegis128NeonDecFinal st src tag =
    if src.length = 0 ∨ src.length = 16 then some (aegisDecFinal st src tag) else none := by
  by_cases some_ : 0 < src.length
  · by_cases full : src.length = 16
    · have few : (((load 16 src).xor (keyStream st)).toList.take src.length).length ≤ 16 := by simp
      rw [if_pos (.inr full), aegisDecFinal_eq, decText_vector some_ full.le]
      simp only [aegis128NeonDecFinal, gt_iff_lt, some_, if_true, vld1qU8_of_le full.ge, memcpyPad_of_le full.le,
        Option.bind_eq_bind, Option.bind_some, stateUpdate128Neon_eq, keyStreamNeon_eq, neonTag_eq, veorqU8,
        memcpyPad_of_le few, tagDiff_eq_zero, ne_eq, ite_not]
    · rw [if_neg (by omega)]
      simp only [aegis128NeonDecFinal, gt_iff_lt, some_, if_true, vld1qU8, memcpyPad]
      split
      next => rw [if_neg (by omega)]; rfl
      next => rfl
  · obtain rfl : src = [] := List.length_eq_zero_iff.mp (by omega)
    rw [if_pos (.inl rfl), aegisDecFinal_eq, Duplex.decText_nil]
    simp [aegis128NeonDecFinal, neonTag_eq, tagDiff_eq_zero]

end Final

/-! ### Sessions -/

/-- With chunks of whole blocks the NEON functions keep to their buffers and give the octets and the tag of
    the pure C functions exactly when the last chunk is at most a block, and the octets and the verdict
    exactly when it is empty or a whole block. -/
theorem neon_drop_in_iff {chunks : List Octets} (whole : ∀ c ∈ chunks, 16 ∣ c.length) (ads : List Octets) (last : Octets)
    (nonce key tag : Block) :
    (neonCallsEncrypt ads chunks last nonce key = some (callsEncrypt ads chunks last nonce key) ↔ last.length ≤ 16) ∧
      (neonCallsDecrypt ads chunks last nonce key tag = some (callsDecrypt ads chunks last nonce key tag) ↔
        last.length = 0 ∨ last.length = 16) := by
  simp only [neonCallsEncrypt, neonCallsDecrypt, neonAdChunks_eq, neonEncChunks_eq whole, neonDecChunks_eq whole,
    aegis128NeonInit_eq, Option.bind_eq_bind, Option.bind_some, aegis128NeonEncFinal_eq, aegis128NeonDecFinal_eq]
  constructor
  · split
    next few => exact iff_of_true rfl few
    next long => exact iff_of_false (by simp) long
  · split
    next fits => exact iff_of_true rfl fits
    next other => exact iff_of_false (by simp) other

/-- A session whose last chunk is a whole block. -/
theorem neon_drop_in_block :
    neonCallsEncrypt [[1], [2]] [List.replicate 16 3] (List.replicate 16 4) (Word.zero 16) (Word.zero 16) =
        some (callsEncrypt [[1], [2]] [List.replicate 16 3] (List.replicate 16 4) (Word.zero 16) (Word.zero 16)) ∧
      neonCallsDecrypt [[1], [2]] [List.replicate 16 3] (List.replicate 16 4) (Word.zero 16) (Word.zero 16) (Word.zero 16) =
        some (callsDecrypt [[1], [2]] [List.replicate 16 3] (List.replicate 16 4) (Word.zero 16) (Word.zero 16)
          (Word.zero 16)) := by
  have session := neon_drop_in_iff (by decide : ∀ c ∈ [(List.replicate 16 3 : Octets)], 16 ∣ c.length) [[1], [2]]
    (List.replicate 16 4) (Word.zero 16) (Word.zero 16) (Word.zero 16)
  exact ⟨session.1.mpr (by decide), session.2.mpr (by decide)⟩

/-- A last chunk of one octet is decrypted with a load of sixteen, and one of seventeen overflows the array. -/
theorem neon_drop_in_fails :
    (¬ ∀ (ads chunks : List Octets) (last : Octets) (nonce key tag : Block), (∀ c ∈ chunks, 16 ∣ c.length) →
      neonCallsEncrypt ads chunks last nonce key = some (callsEncrypt ads chunks last nonce key) ∧
        neonCallsDecrypt ads chunks last nonce key tag = some (callsDecrypt ads chunks last nonce key tag)) ∧
      (∀ nonce key tag : Block, neonCallsDecrypt [] [] [0] nonce key tag = none) ∧
      ∀ nonce key : Block, neonCallsEncrypt [] [] (List.replicate 17 0) nonce key = none := by
  have short : ∀ nonce key tag : Block, neonCallsDecrypt [] [] [0] nonce key tag = none := fun _ _ _ => rfl
  refine ⟨fun same => ?_, short, fun _ _ => rfl⟩
  have := (same [] [] [0] (Word.zero 16) (Word.zero 16) (Word.zero 16) (by simp)).2
  rw [short] at this
  cases this

end AegisTunnel
