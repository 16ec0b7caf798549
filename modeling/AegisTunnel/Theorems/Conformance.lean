import AegisTunnel.Crypto.Reference
import AegisTunnel.Theorems.Aegis

/-! How far the pure C cipher is AEGIS-128. Blocks, key stream and state update are as specified; the
    initial state and the tag are not. The tag of the specification depends on the lengths of its input and
    that of the code does not, so under no key and nonce are the two the same. -/

namespace AegisTunnel
open Octets

/-! ### Blocks -/

namespace Reference

@[simp] theorem absorb_nil (S : AegisState) : absorb S [] = S := rfl

@[simp] theorem absorb_cons (S : AegisState) (m : Block) (ms : List Block) :
    absorb S (m :: ms) = absorb (update S m) ms := rfl

theorem absorb_append (S : AegisState) (ms ms' : List Block) : absorb S (ms ++ ms') = absorb (absorb S ms) ms' :=
  List.foldl_append

theorem update_eq : update = stateUpdate128 := by
  funext S m
  simp only [update, stateUpdate128, Word.xor_comm (aesRound _)]

@[simp] theorem blocks_nil : blocks [] = [] := rfl

@[simp] theorem blocks_word (w : Block) (l : Octets) : blocks (w.toList ++ l) = w :: blocks l := by
  have count : ((w.toList ++ l).length + 15) / 16 = (l.length + 15) / 16 + 1 := by
    rw [List.length_append, w.toList_length]
    omega
  have drop : ∀ i, (w.toList ++ l).drop (16 * (i + 1)) = l.drop (16 * i) := fun i => by
    rw [Nat.mul_succ, Nat.add_comm, ← List.drop_drop]
    congr 1
    exact List.drop_left' w.toList_length
  simp only [blocks, count, List.range_succ_eq_map, List.map_cons, List.map_map, Function.comp_def, drop]
  rw [Nat.mul_zero, List.drop_zero, load_toList_append]

theorem blocks_short {l : Octets} (some_ : 0 < l.length) (few : l.length ≤ 16) : blocks l = [load 16 l] := by
  have count : (l.length + 15) / 16 = 1 := by omega
  simp [blocks, count]

end Reference

open Reference

theorem length_word_append (w : Block) (l : Octets) : (w.toList ++ l).length / 16 = l.length / 16 + 1 := by
  rw [List.length_append, w.toList_length]
  omega

theorem aegisAdUpdate_eq_absorb (S : AegisState) (ad : Octets) : aegisAdUpdate S ad = absorb S (blocks ad) := by
  induction ad using words_induction (n := 16) (by decide) generalizing S with
  | short ad few =>
    have none_ : ad.length / 16 = 0 := Nat.div_eq_of_lt few
    simp only [aegisAdUpdate, none_, adLoop, Nat.zero_mul, Nat.sub_zero, List.drop_zero]
    split
    next some_ => rw [blocks_short some_ few.le, absorb_cons, absorb_nil, update_eq]
    next empty =>
      obtain rfl : ad = [] := List.length_eq_zero_iff.mp (by omega)
      rfl
  | word w ad ih =>
    have rest : (w.toList ++ ad).drop ((ad.length / 16 + 1) * 16) = ad.drop (ad.length / 16 * 16) := by
      rw [Nat.succ_mul, Nat.add_comm, ← List.drop_drop, List.drop_left' w.toList_length]
    have rem : (w.toList ++ ad).length - (ad.length / 16 + 1) * 16 = ad.length - ad.length / 16 * 16 := by
      rw [List.length_append, w.toList_length]
      omega
    have step := ih (stateUpdate128 S w)
    simp only [aegisAdUpdate] at step
    simp only [aegisAdUpdate, length_word_append, adLoop, load_toList_append, List.drop_left' w.toList_length, rest, rem]
    rw [step, blocks_word, absorb_cons, update_eq]

theorem encText_eq_crypt (S : AegisState) (m : Octets) : aegisDuplex.encText S m =
    (((crypt S (blocks m)).1.flatMap (·.toList)).take m.length, (crypt S (blocks m)).2) := by
  induction m using words_induction (n := 16) (by decide) generalizing S with
  | short m few =>
    have none_ : m.length / 16 = 0 := Nat.div_eq_of_lt few
    by_cases some_ : m.length > 0
    · simp only [Duplex.encText, none_, Duplex.encLoop, Nat.zero_mul, List.drop_zero, Duplex.encTail, if_pos some_,
        List.nil_append, blocks_short some_ few.le, crypt, update_eq, List.flatMap_cons, List.flatMap_nil, List.append_nil]
      rw [take_toList_xor_load _ few.le]
      rfl
    · obtain rfl : m = [] := List.length_eq_zero_iff.mp (by omega)
      rfl
  | word w m ih =>
    have split := Duplex.encText_blocks_append (d := aegisDuplex) (S := S) (k := 1) (by decide) w.toList_length m
    simp only [Duplex.encLoop, load_toList, List.append_nil] at split
    have whole : (w.xor (Reference.keyStream S)).toList.take (16 + m.length) = (w.xor (Reference.keyStream S)).toList :=
      List.take_of_length_le (by rw [List.Vector.toList_length]; omega)
    rw [split, ih, blocks_word, crypt, update_eq]
    simp only [List.flatMap_cons, List.length_append, w.toList_length]
    rw [List.take_append, List.Vector.toList_length, Nat.add_sub_cancel_left, whole]
    rfl

theorem aegisStart_eq_absorb (ad : Octets) (nonce key : Block) :
    aegisStart ad nonce key = absorb (aegisInit key nonce) (blocks ad) := by
  unfold aegisStart
  split
  · exact aegisAdUpdate_eq_absorb _ _
  next none_ =>
    obtain rfl : ad = [] := List.length_eq_zero_iff.mp (by omega)
    rw [blocks_nil, absorb_nil]

/-- The code is the specified cipher between its own first state and its own tag. -/
theorem aegisPureEncrypt_eq_crypt (m ad : Octets) (nonce key : Block) :
    aegisPureEncrypt m ad nonce key =
      (((crypt (absorb (aegisInit key nonce) (blocks ad)) (blocks m)).1.flatMap (·.toList)).take m.length,
        aegisTag (crypt (absorb (aegisInit key nonce) (blocks ad)) (blocks m)).2) := by
  rw [aegisPureEncrypt_eq, encText_eq_crypt, aegisStart_eq_absorb]

theorem crypt_snd (S : AegisState) (ps : List Block) : (crypt S ps).2 = absorb S ps := by
  induction ps generalizing S with
  | nil => rfl
  | cons p ps ih => exact ih _

/-! ### The AES round reaches every block -/

theorem xor_left_comm (a b c : UInt8) : a ^^^ (b ^^^ c) = b ^^^ (a ^^^ c) := by
  rw [← UInt8.xor_assoc, UInt8.xor_comm a b, UInt8.xor_assoc]

theorem xor_cancel_left (a b : UInt8) : a ^^^ (a ^^^ b) = b := by
  rw [← UInt8.xor_assoc, UInt8.xor_self, UInt8.zero_xor]

theorem xtime_xor (a b : UInt8) : xtime (a ^^^ b) = xtime a ^^^ xtime b := by
  have bit : ∀ x : UInt8, x >>> 7 = 0 ∨ x >>> 7 = 1 := fun x => by
    have top : (x >>> 7).toNat = x.toNat / 128 := by rw [UInt8.toNat_shiftRight]; exact Nat.shiftRight_eq_div_pow _ _
    have := x.toNat_lt
    rcases (by omega : x.toNat / 128 = 0 ∨ x.toNat / 128 = 1) with h | h
    · exact .inl (UInt8.toNat_inj.mp (top.trans h))
    · exact .inr (UInt8.toNat_inj.mp (top.trans h))
  unfold xtime
  rw [UInt8.shiftRight_xor, UInt8.shiftLeft_xor]
  rcases bit a with ha | ha <;> rcases bit b with hb | hb <;> rw [ha, hb] <;>
    simp [UInt8.xor_assoc, UInt8.xor_comm, xor_left_comm]

/-- `mixColumn` on the bytes of a word. -/
def mixWord (w : Word 4) : Word 4 := mixColumn (w.get 0) (w.get 1) (w.get 2) (w.get 3)

theorem mixWord_mk (a b c d : UInt8) : mixWord ⟨[a, b, c, d], rfl⟩ = mixColumn a b c d := rfl

theorem mixWord_mixColumn (a b c d : UInt8) :
    mixWord (mixColumn a b c d) =
      ⟨[a ^^^ xtime (xtime (a ^^^ c)), b ^^^ xtime (xtime (b ^^^ d)),
        c ^^^ xtime (xtime (a ^^^ c)), d ^^^ xtime (xtime (b ^^^ d))], rfl⟩ := by
  rw [mixColumn, mixWord_mk, mixColumn]
  apply Subtype.ext
  simp only [mul3, xtime_xor, List.cons.injEq, and_true]
  refine ⟨?_, ?_, ?_, ?_⟩ <;> ac_nf <;> simp only [xor_cancel_left, UInt8.xor_self, UInt8.xor_zero]

/-- Four times MixColumns is the identity. -/
theorem mixColumn_surjective (a b c d : UInt8) : ∃ a' b' c' d', mixColumn a' b' c' d' = ⟨[a, b, c, d], rfl⟩ := by
  have difference : ∀ x y z : UInt8, (x ^^^ z) ^^^ (y ^^^ z) = x ^^^ y := fun x y z => by
    rw [UInt8.xor_assoc, UInt8.xor_comm y, xor_cancel_left]
  let w := mixWord (mixWord (mixColumn a b c d))
  refine ⟨w.get 0, w.get 1, w.get 2, w.get 3, ?_⟩
  show mixWord (mixWord (mixWord (mixColumn a b c d))) = _
  rw [mixWord_mixColumn, mixWord_mk, mixWord_mixColumn]
  apply Subtype.ext
  simp only [difference, UInt8.xor_assoc, UInt8.xor_self, UInt8.xor_zero]

theorem aesMixColumns_surjective : Function.Surjective aesMixColumns := by
  rintro ⟨l, len⟩
  match l, len with
  | [x0, x1, x2, x3, x4, x5, x6, x7, x8, x9, x10, x11, x12, x13, x14, x15], _ =>
    obtain ⟨a0, a1, a2, a3, ha⟩ := mixColumn_surjective x0 x1 x2 x3
    obtain ⟨b0, b1, b2, b3, hb⟩ := mixColumn_surjective x4 x5 x6 x7
    obtain ⟨c0, c1, c2, c3, hc⟩ := mixColumn_surjective x8 x9 x10 x11
    obtain ⟨d0, d1, d2, d3, hd⟩ := mixColumn_surjective x12 x13 x14 x15
    refine ⟨⟨[a0, a1, a2, a3, b0, b1, b2, b3, c0, c1, c2, c3, d0, d1, d2, d3], rfl⟩, Subtype.ext ?_⟩
    show (mixColumn a0 a1 a2 a3).toList ++ (mixColumn b0 b1 b2 b3).toList ++ (mixColumn c0 c1 c2 c3).toList ++
      (mixColumn d0 d1 d2 d3).toList = _
    rw [ha, hb, hc, hd]
    rfl

/-- Four shifts of the rows are none. -/
theorem aesShiftRows_surjective : Function.Surjective aesShiftRows := by
  intro y
  refine ⟨aesShiftRows (aesShiftRows (aesShiftRows y)), List.Vector.ext fun i => ?_⟩
  have undo : ∀ i, srPerm.get (srPerm.get (srPerm.get (srPerm.get i))) = i := by decide
  simp only [aesShiftRows, List.Vector.get_map, undo]

/-- The table has 256 entries, and the set of them, as a bit mask, is full. -/
theorem aesSbox_full : aesSbox.length = 256 ∧ aesSbox.foldl (fun mask x => mask ||| 1 <<< x.toNat) 0 = 2 ^ 256 - 1 := by
  decide +kernel

theorem testBit_foldl_mask (l : Octets) (mask n : Nat) :
    (l.foldl (fun mask x => mask ||| 1 <<< x.toNat) mask).testBit n = true ↔ mask.testBit n = true ∨ ∃ x ∈ l, x.toNat = n := by
  induction l generalizing mask with
  | nil => simp
  | cons x l ih =>
    rw [List.foldl_cons, ih, Nat.testBit_or, Nat.one_shiftLeft, Nat.testBit_two_pow]
    simp [or_assoc]

theorem mem_aesSbox (y : UInt8) : y ∈ aesSbox := by
  have full : (aesSbox.foldl (fun mask x => mask ||| 1 <<< x.toNat) 0).testBit y.toNat = true := by
    rw [aesSbox_full.2, Nat.testBit_two_pow_sub_one]
    exact decide_eq_true y.toNat_lt
  rcases (testBit_foldl_mask _ _ _).mp full with zero | ⟨x, found, same⟩
  · simp at zero
  · exact UInt8.toNat_inj.mp same ▸ found

theorem aesSubBytes_surjective : Function.Surjective aesSubBytes := by
  have sub : ∀ y : UInt8, ∃ x : UInt8, aesSbox.getD x.toNat 0 = y := fun y => by
    obtain ⟨i, bound, entry⟩ := List.mem_iff_getElem.mp (mem_aesSbox y)
    have small : i < 256 := bound.trans_eq aesSbox_full.1
    refine ⟨UInt8.ofNat i, ?_⟩
    rw [UInt8.toNat_ofNat_of_lt' small, List.getD_eq_getElem?_getD, List.getElem?_eq_getElem bound, entry, Option.getD_some]
  choose inv undo using sub
  intro y
  refine ⟨y.map inv, List.Vector.ext fun i => ?_⟩
  simp only [aesSubBytes, List.Vector.get_map, undo]

theorem aesRound_surjective : Function.Surjective aesRound :=
  aesMixColumns_surjective.comp (aesShiftRows_surjective.comp aesSubBytes_surjective)

/-! ### Every state can be reached with five blocks -/

/-- The first word can be set at will, and the others do not depend on the block. -/
theorem exists_update {S T : AegisState} (h1 : (aesRound S.s0).xor S.s1 = T.s1) (h2 : (aesRound S.s1).xor S.s2 = T.s2)
    (h3 : (aesRound S.s2).xor S.s3 = T.s3) (h4 : (aesRound S.s3).xor S.s4 = T.s4) : ∃ m, update S m = T := by
  refine ⟨T.s0.xor ((aesRound S.s4).xor S.s0), ?_⟩
  rw [update_eq, stateUpdate128, Word.xor_comm _ (T.s0.xor _), Word.xor_xor_cancel, h1, h2, h3, h4]

theorem exists_absorb (S T : AegisState) : ∃ m1 m2 m3 m4 m5, absorb S [m1, m2, m3, m4, m5] = T := by
  obtain ⟨inv, undo⟩ := aesRound_surjective.hasRightInverse
  have solve : ∀ x y : Block, (aesRound (inv (x.xor y))).xor y = x := fun x y => by
    rw [undo, Word.xor_xor_cancel]
  -- The words of the states on the way that do not depend on the blocks.
  let b1 := (aesRound S.s0).xor S.s1
  let c1 := (aesRound S.s1).xor S.s2
  let d1 := (aesRound S.s2).xor S.s3
  let e1 := (aesRound S.s3).xor S.s4
  let c2 := (aesRound b1).xor c1
  let d2 := (aesRound c1).xor d1
  let e2 := (aesRound d1).xor e1
  let d3 := (aesRound c2).xor d2
  let e3 := (aesRound d2).xor e2
  let e4 := (aesRound d3).xor e3
  -- Back from the target: what a word has to be for the next word one step later.
  let d4 := inv (T.s4.xor e4)
  let c4 := inv (T.s3.xor d4)
  let b4 := inv (T.s2.xor c4)
  let c3 := inv (d4.xor d3)
  let b3 := inv (c4.xor c3)
  let b2 := inv (c3.xor c2)
  let S1 : AegisState := ⟨inv (b2.xor b1), b1, c1, d1, e1⟩
  let S2 : AegisState := ⟨inv (b3.xor b2), b2, c2, d2, e2⟩
  let S3 : AegisState := ⟨inv (b4.xor b3), b3, c3, d3, e3⟩
  let S4 : AegisState := ⟨inv (T.s1.xor b4), b4, c4, d4, e4⟩
  obtain ⟨m1, h1⟩ : ∃ m, update S m = S1 := exists_update rfl rfl rfl rfl
  obtain ⟨m2, h2⟩ : ∃ m, update S1 m = S2 := exists_update (solve b2 b1) rfl rfl rfl
  obtain ⟨m3, h3⟩ : ∃ m, update S2 m = S3 := exists_update (solve b3 b2) (solve c3 c2) rfl rfl
  obtain ⟨m4, h4⟩ : ∃ m, update S3 m = S4 := exists_update (solve b4 b3) (solve c4 c3) (solve d4 d3) rfl
  obtain ⟨m5, h5⟩ : ∃ m, update S4 m = T :=
    exists_update (solve T.s1 b4) (solve T.s2 c4) (solve T.s3 d4) (solve T.s4 e4)
  refine ⟨m1, m2, m3, m4, m5, ?_⟩
  simp only [absorb_cons, absorb_nil, h1, h2, h3, h4, h5]

/-! ### Tags and lengths -/

def zeroState : AegisState := ⟨Word.zero 16, Word.zero 16, Word.zero 16, Word.zero 16, Word.zero 16⟩

/-- A state after which the specified tag tells the lengths of a message apart. -/
def telling : {S : AegisState // finalise (update S (Word.zero 16)) 0 81 ≠ finalise (update S (Word.zero 16)) 0 82} :=
  ⟨zeroState, by decide +kernel⟩

/-- Some blocks and then some zeros. -/
def zeroPadded (ms : List Block) (k : Nat) : Octets := ms.flatMap (·.toList) ++ List.replicate k 0

theorem blocks_zeroPadded (ms : List Block) {k : Nat} (some_ : 0 < k) (few : k ≤ 16) :
    blocks (zeroPadded ms k) = ms ++ [Word.zero 16] := by
  induction ms with
  | nil =>
    have zero : load 16 (List.replicate k (0 : UInt8)) = Word.zero 16 := by
      apply List.Vector.toList_injective
      rw [toList_load, List.take_of_length_le (by simp; omega), List.length_replicate, List.replicate_append_replicate,
        Nat.add_sub_cancel' few]
      rfl
    rw [zeroPadded, List.flatMap_nil, List.nil_append, blocks_short (by simpa) (by simpa), zero]
    rfl
  | cons m ms ih =>
    rw [zeroPadded, List.flatMap_cons, List.append_assoc, blocks_word]
    exact congrArg _ ih

theorem length_zeroPadded (ms : List Block) (k : Nat) : (zeroPadded ms k).length = 16 * ms.length + k := by
  rw [zeroPadded, List.length_append, List.length_replicate]
  congr 1
  induction ms with
  | nil => rfl
  | cons m ms ih => rw [List.flatMap_cons, List.length_append, ih, m.toList_length, List.length_cons]; omega

theorem aegisPureEncrypt_tag (m : Octets) (nonce key : Block) :
    (aegisPureEncrypt m [] nonce key).2 = aegisTag (absorb (aegisInit key nonce) (blocks m)) := by
  simp only [aegisPureEncrypt_eq_crypt, crypt_snd, blocks_nil, absorb_nil]

theorem encrypt_tag (m : Octets) (nonce key : Block) :
    (encrypt m [] nonce key).2 = finalise (absorb (initialise key nonce) (blocks m)) 0 m.length := by
  simp only [encrypt, crypt_snd, blocks_nil, absorb_nil, List.length_nil]

/-- Under no key and nonce does the code compute AEGIS-128: there is a message for which it does not. What
    differs are the first state and the tag. -/
theorem aegis_nonconforming (key nonce : Block) :
    (∃ m, aegisPureEncrypt m [] nonce key ≠ encrypt m [] nonce key) ∧
      ∀ m ad, aegisPureEncrypt m ad nonce key =
        (((crypt (absorb (aegisInit key nonce) (blocks ad)) (blocks m)).1.flatMap (·.toList)).take m.length,
          aegisTag (crypt (absorb (aegisInit key nonce) (blocks ad)) (blocks m)).2) := by
  refine ⟨?_, fun m ad => aegisPureEncrypt_eq_crypt m ad nonce key⟩
  by_contra conforms
  push Not at conforms
  obtain ⟨m1, m2, m3, m4, m5, reached⟩ := exists_absorb (initialise key nonce) telling
  -- Two messages with the same blocks: the code gives them the same tag, the specification does not.
  have tag : ∀ k, 0 < k → k < 16 →
      aegisTag (absorb (aegisInit key nonce) ([m1, m2, m3, m4, m5] ++ [Word.zero 16])) =
        finalise (update telling (Word.zero 16)) 0 (80 + k) := by
    intro k some_ few
    have same := congrArg Prod.snd (conforms (zeroPadded [m1, m2, m3, m4, m5] k))
    rw [aegisPureEncrypt_tag, encrypt_tag, blocks_zeroPadded _ some_ few.le, length_zeroPadded] at same
    rw [same, absorb_append, reached, absorb_cons, absorb_nil]
    rfl
  exact telling.property ((tag 1 (by decide) (by decide)).symm.trans (tag 2 (by decide) (by decide)))

theorem aegis_zeros_nonconforming :
    aegisPureEncrypt (List.replicate 16 0) [] (Word.zero 16) (Word.zero 16) ≠
      encrypt (List.replicate 16 0) [] (Word.zero 16) (Word.zero 16) := by
  intro same
  have text := congrArg Prod.fst (same.trans firstAnswer.agrees)
  exact absurd text (by decide +kernel)

end AegisTunnel
