import Mathlib.Data.List.GetD
import AegisTunnel.Theorems.Streaming
import AegisTunnel.Theorems.HandshakeServer
import AegisTunnel.Theorems.UdpHandshake

/-! One wire format, two parsers. A handshake message of either transport is read back by both. Over TCP the
    four header bytes are not looked at and the timestamp is authenticated with the header as it should be;
    over UDP the first byte is checked and the timestamp is authenticated with the header as it came. So the
    parsers accept the same messages behind the right header and behind no other one. -/

namespace AegisTunnel
open Octets Reference

/-! ### What the AES round does to single bytes -/

theorem aesSbox_injective {x y : UInt8} (same : aesSbox.getD x.toNat 0 = aesSbox.getD y.toNat 0) : x = y := by
  have sub : Function.Injective aesSubBytes := Finite.injective_iff_surjective.mpr aesSubBytes_surjective
  have blocks : aesSubBytes (List.Vector.replicate 16 x) = aesSubBytes (List.Vector.replicate 16 y) :=
    List.Vector.ext fun i => by simp only [aesSubBytes, List.Vector.get_map, List.Vector.get_replicate, same]
  have byte := congrArg (·.get 0) (sub blocks)
  simpa only [List.Vector.get_replicate] using byte

theorem forall_byte {p : UInt8 → Prop} (h : ∀ x : Fin 256, p (UInt8.ofNat x.val)) (x : UInt8) : p x := by
  have := h ⟨x.toNat, x.toNat_lt⟩
  rwa [UInt8.ofNat_toNat] at this

theorem xtime_eq_zero (x : UInt8) : xtime x = 0 → x = 0 :=
  forall_byte (p := fun x => xtime x = 0 → x = 0) (by decide +kernel) x

theorem mul3_eq_zero (x : UInt8) : mul3 x = 0 → x = 0 :=
  forall_byte (p := fun x => mul3 x = 0 → x = 0) (by decide +kernel) x

theorem mul7_eq_zero (x : UInt8) : mul3 (xtime x) ^^^ x = 0 → x = 0 :=
  forall_byte (p := fun x => mul3 (xtime x) ^^^ x = 0 → x = 0) (by decide +kernel) x

/-- Three bytes of a mixed column determine three bytes of the column where the fourth is zero. -/
theorem mixColumn_three {b c d : UInt8} (h0 : mul3 b ^^^ c ^^^ d = 0) (h1 : xtime b ^^^ mul3 c ^^^ d = 0)
    (h2 : b ^^^ xtime c ^^^ mul3 d = 0) : b = 0 ∧ c = 0 ∧ d = 0 := by
  have sum : (mul3 b ^^^ c ^^^ d) ^^^ (xtime b ^^^ mul3 c ^^^ d) = b ^^^ xtime c := by
    simp only [mul3]
    ac_nf
    simp only [xor_cancel_left]
  have hbc : b ^^^ xtime c = 0 := by rw [← sum, h0, h1, UInt8.xor_self]
  have hd : d = 0 := by
    rw [hbc, UInt8.zero_xor] at h2
    exact mul3_eq_zero d h2
  obtain rfl := UInt8.xor_eq_zero_iff.mp hbc
  have hc : c = 0 := by
    rw [hd, UInt8.xor_zero] at h0
    exact mul7_eq_zero c h0
  refine ⟨?_, hc, hd⟩
  rw [hc]
  rfl

section Round
variable {x y : Block}

/-- The difference that MixColumns meets in the rounds of two blocks. -/
def shiftedDiff (x y : Block) : Block := aesShiftRows ((aesSubBytes x).xor (aesSubBytes y))

theorem shiftedDiff_eq_zero (i : Fin 16) :
    (shiftedDiff x y).get i = 0 ↔ x.get (srPerm.get i) = y.get (srPerm.get i) := by
  rw [shiftedDiff, aesShiftRows, List.Vector.get_map, Word.get_xor, aesSubBytes, aesSubBytes, List.Vector.get_map,
    List.Vector.get_map, UInt8.xor_eq_zero_iff]
  exact ⟨aesSbox_injective, fun same => by rw [same]⟩

theorem aesRound_get_eq (i : Fin 16) :
    (aesRound x).get i = (aesRound y).get i ↔ (aesMixColumns (shiftedDiff x y)).get i = 0 := by
  rw [shiftedDiff, ← xor_aesRound, Word.get_xor, UInt8.xor_eq_zero_iff]

/-- The first column of a round comes from the bytes 0, 5, 10 and 15. -/
theorem aesRound_first (h0 : x.get 0 = y.get 0) (h5 : x.get 5 = y.get 5) (h10 : x.get 10 = y.get 10)
    (h15 : x.get 15 = y.get 15) : ∀ i ∈ ([0, 1, 2] : List (Fin 16)), (aesRound x).get i = (aesRound y).get i := by
  have z0 := (shiftedDiff_eq_zero 0).mpr h0
  have z1 := (shiftedDiff_eq_zero 1).mpr h5
  have z2 := (shiftedDiff_eq_zero 2).mpr h10
  have z3 := (shiftedDiff_eq_zero 3).mpr h15
  simp only [List.forall_mem_cons, List.not_mem_nil, false_imp_iff, forall_true_iff, and_true, aesRound_get_eq]
  refine ⟨?_, ?_, ?_⟩
  · show xtime _ ^^^ mul3 _ ^^^ _ ^^^ _ = 0
    rw [z0, z1, z2, z3]
    rfl
  · show _ ^^^ xtime _ ^^^ mul3 _ ^^^ _ = 0
    rw [z0, z1, z2, z3]
    rfl
  · show _ ^^^ _ ^^^ xtime _ ^^^ mul3 _ = 0
    rw [z0, z1, z2, z3]
    rfl

/-- Conversely three of its bytes determine the last three of these. -/
theorem aesRound_first_inj (h0 : x.get 0 = y.get 0)
    (same : ∀ i ∈ ([0, 1, 2] : List (Fin 16)), (aesRound x).get i = (aesRound y).get i) :
    x.get 5 = y.get 5 ∧ x.get 10 = y.get 10 ∧ x.get 15 = y.get 15 := by
  have z0 := (shiftedDiff_eq_zero 0).mpr h0
  have row0 : xtime ((shiftedDiff x y).get 0) ^^^ mul3 ((shiftedDiff x y).get 1) ^^^ (shiftedDiff x y).get 2 ^^^
      (shiftedDiff x y).get 3 = 0 := (aesRound_get_eq 0).mp (same 0 (by decide))
  have row1 : (shiftedDiff x y).get 0 ^^^ xtime ((shiftedDiff x y).get 1) ^^^ mul3 ((shiftedDiff x y).get 2) ^^^
      (shiftedDiff x y).get 3 = 0 := (aesRound_get_eq 1).mp (same 1 (by decide))
  have row2 : (shiftedDiff x y).get 0 ^^^ (shiftedDiff x y).get 1 ^^^ xtime ((shiftedDiff x y).get 2) ^^^
      mul3 ((shiftedDiff x y).get 3) = 0 := (aesRound_get_eq 2).mp (same 2 (by decide))
  have hzero : xtime 0 = 0 := rfl
  rw [z0, hzero, UInt8.zero_xor] at row0
  rw [z0, UInt8.zero_xor] at row1 row2
  obtain ⟨z1, z2, z3⟩ := mixColumn_three row0 row1 row2
  exact ⟨(shiftedDiff_eq_zero 1).mp z1, (shiftedDiff_eq_zero 2).mp z2, (shiftedDiff_eq_zero 3).mp z3⟩

/-- Where two blocks differ at most in the bytes 1, 2 and 3, three bytes of a round tell. -/
theorem aesRound_header_inj (others : ∀ i, i ∉ ([1, 2, 3] : List (Fin 16)) → x.get i = y.get i)
    (h5 : (aesRound x).get 5 = (aesRound y).get 5) (h10 : (aesRound x).get 10 = (aesRound y).get 10)
    (h15 : (aesRound x).get 15 = (aesRound y).get 15) : x = y := by
  have zero : ∀ i, srPerm.get i ∉ ([1, 2, 3] : List (Fin 16)) → (shiftedDiff x y).get i = 0 := fun i hi =>
    (shiftedDiff_eq_zero i).mpr (others _ hi)
  have row5 : (shiftedDiff x y).get 4 ^^^ xtime ((shiftedDiff x y).get 5) ^^^ mul3 ((shiftedDiff x y).get 6) ^^^
      (shiftedDiff x y).get 7 = 0 := (aesRound_get_eq 5).mp h5
  have row10 : (shiftedDiff x y).get 8 ^^^ (shiftedDiff x y).get 9 ^^^ xtime ((shiftedDiff x y).get 10) ^^^
      mul3 ((shiftedDiff x y).get 11) = 0 := (aesRound_get_eq 10).mp h10
  have row15 : mul3 ((shiftedDiff x y).get 12) ^^^ (shiftedDiff x y).get 13 ^^^ (shiftedDiff x y).get 14 ^^^
      xtime ((shiftedDiff x y).get 15) = 0 := (aesRound_get_eq 15).mp h15
  have hx : xtime 0 = 0 := rfl
  have hm : mul3 0 = 0 := rfl
  rw [zero 4 (by decide), zero 5 (by decide), zero 6 (by decide), hx, hm] at row5
  rw [zero 8 (by decide), zero 9 (by decide), zero 11 (by decide), hm] at row10
  rw [zero 12 (by decide), zero 14 (by decide), zero 15 (by decide), hx, hm] at row15
  simp only [UInt8.zero_xor, UInt8.xor_zero] at row5 row10 row15
  have b3 : x.get 3 = y.get 3 := (shiftedDiff_eq_zero 7).mp row5
  have b2 : x.get 2 = y.get 2 := (shiftedDiff_eq_zero 10).mp (xtime_eq_zero _ row10)
  have b1 : x.get 1 = y.get 1 := (shiftedDiff_eq_zero 13).mp row15
  refine List.Vector.ext fun i => ?_
  by_cases hi : i ∈ ([1, 2, 3] : List (Fin 16))
  · simp only [List.mem_cons, List.not_mem_nil, or_false] at hi
    rcases hi with rfl | rfl | rfl
    · exact b1
    · exact b2
    · exact b3
  · exact others i hi

end Round

/-! ### The keystream behind three blocks of associated data -/

/-- A key for which the first three bytes of the fourth word are full once three blocks have been absorbed. -/
def fullKey : Block := ⟨[0, 0, 0, 0, 0, 0, 0, 0, 0, 0, 0, 0, 0x01, 0x66, 0x6e, 0x85], rfl⟩

theorem fullKey_third (a b c : Block) : ∀ i ∈ ([0, 1, 2] : List (Fin 16)),
    (absorb (aegisInit fullKey (Word.zero 16)) [a, b, c]).s3.get i = 0xff := by
  -- The fourth word does not depend on the last three blocks.
  have constant : (absorb (aegisInit fullKey (Word.zero 16)) [a, b, c]).s3 =
      (absorb (aegisInit fullKey (Word.zero 16)) [Word.zero 16, Word.zero 16, Word.zero 16]).s3 := rfl
  rw [constant]
  decide +kernel

theorem get_keyStream (S : AegisState) (i : Fin 16) :
    (keyStream S).get i = S.s1.get i ^^^ S.s4.get i ^^^ (S.s2.get i &&& S.s3.get i) := by
  have hand : (S.s2.and S.s3).get i = S.s2.get i &&& S.s3.get i := List.Vector.zipWith_get _ _ _ i
  rw [keyStream, Word.get_xor, Word.get_xor, hand]

theorem and_full (x : UInt8) : x &&& 0xff = x := by
  apply UInt8.toNat_inj.mp
  rw [UInt8.toNat_and]
  exact Nat.and_two_pow_sub_one_of_lt_two_pow (n := 8) x.toNat_lt

theorem get_xor_iff {x y a b : Block} {i : Fin 16} (same : x.get i = y.get i) :
    (x.xor a).get i = (y.xor b).get i ↔ a.get i = b.get i := by
  rw [Word.get_xor, Word.get_xor, same, UInt8.xor_right_inj]

/-- A difference in the bytes 1, 2 and 3 of the first of three blocks is seen in the keystream: it comes to
    the second word with the second block, from there with the third block to the first column of the third
    word, and the fourth word lets it through. -/
theorem keyStream_first_block {S : AegisState} {a a' b c : Block}
    (full : ∀ x, ∀ i ∈ ([0, 1, 2] : List (Fin 16)), (absorb S [x, b, c]).s3.get i = 0xff)
    (others : ∀ i, i ∉ ([1, 2, 3] : List (Fin 16)) → a.get i = a'.get i)
    (same : ∀ i ∈ ([0, 1, 2] : List (Fin 16)),
      (keyStream (absorb S [a, b, c])).get i = (keyStream (absorb S [a', b, c])).get i) : a = a' := by
  let P := update S a
  let P' := update S a'
  let Q := update P b
  let Q' := update P' b
  -- Of the first word only the three bytes differ; they do not reach the first column of its round.
  have first : ∀ i, i ∉ ([1, 2, 3] : List (Fin 16)) → P.s0.get i = P'.s0.get i := fun i hi =>
    (get_xor_iff rfl).mpr (others i hi)
  have second : ∀ i, i ∉ ([1, 2, 3] : List (Fin 16)) → Q.s0.get i = Q'.s0.get i := fun i hi => by
    have shifted : (P.s0.xor (aesRound P.s4)).get i = (P'.s0.xor (aesRound P'.s4)).get i :=
      (get_xor_iff (first i hi)).mpr rfl
    exact (get_xor_iff shifted).mpr rfl
  have column : ∀ i ∈ ([0, 1, 2] : List (Fin 16)), Q.s1.get i = Q'.s1.get i := fun i hi => by
    have round := aesRound_first (first 0 (by decide)) (first 5 (by decide)) (first 10 (by decide)) (first 15 (by decide))
    exact (get_xor_iff rfl).mpr (round i hi)
  have column' : ∀ i ∈ ([0, 1, 2] : List (Fin 16)), (update Q c).s1.get i = (update Q' c).s1.get i := fun i hi => by
    have round := aesRound_first (second 0 (by decide)) (second 5 (by decide)) (second 10 (by decide))
      (second 15 (by decide))
    exact (get_xor_iff (column i hi)).mpr (round i hi)
  -- So the keystream shows the first column of the third word.
  have third : ∀ i ∈ ([0, 1, 2] : List (Fin 16)), (aesRound Q.s1).get i = (aesRound Q'.s1).get i := fun i hi => by
    have shown : (keyStream (update Q c)).get i = (keyStream (update Q' c)).get i := same i hi
    have fourth : (update Q c).s3.get i = 0xff := full a i hi
    have fourth' : (update Q' c).s3.get i = 0xff := full a' i hi
    have fifth : (update Q c).s4 = (update Q' c).s4 := rfl
    rw [get_keyStream, get_keyStream, column' i hi, fifth, fourth, fourth', and_full, and_full,
      UInt8.xor_right_inj] at shown
    exact (get_xor_iff rfl).mp shown
  obtain ⟨h5, h10, h15⟩ := aesRound_first_inj (column 0 (by decide)) third
  have start : P.s0 = P'.s0 :=
    aesRound_header_inj first ((get_xor_iff rfl).mp h5) ((get_xor_iff rfl).mp h10) ((get_xor_iff rfl).mp h15)
  exact List.Vector.ext fun i => (get_xor_iff rfl).mp (congrArg (·.get i) start)

/-! ### Behind a header -/

theorem get_eq_getD (w : Block) (i : Fin 16) : w.get i = w.toList.getD i.val 0 := by
  have entry : w.get i = w.toList.get ⟨i.val, by rw [w.toList_length]; exact i.isLt⟩ := rfl
  rw [entry, List.get_eq_getElem, List.getD_eq_getElem]

theorem blocks_three {l : Octets} (len : l.length = 36) :
    blocks l = [load 16 l, load 16 (l.drop 16), load 16 (l.drop 32)] := by
  rw [blocks, len]
  rfl

/-- With `fullKey` the first bytes of the keystream tell a header of the right type from another one. -/
theorem keyStream_header {h h' : Octets} {e : Word 32} (len : h.length = 4) (len' : h'.length = 4)
    (type : h.getD 0 0 = h'.getD 0 0)
    (same : ∀ i ∈ ([0, 1, 2] : List (Fin 16)), (keyStream (aegisStart (h ++ e.toList) (Word.zero 16) fullKey)).get i =
      (keyStream (aegisStart (h' ++ e.toList) (Word.zero 16) fullKey)).get i) : h = h' := by
  have tail : ∀ k, (h ++ e.toList).drop (4 + k) = (h' ++ e.toList).drop (4 + k) := fun k => by
    rw [← List.drop_drop, ← List.drop_drop, List.drop_left' len, List.drop_left' len']
  rw [aegisStart_eq_absorb, aegisStart_eq_absorb, blocks_three (by simp [len]), blocks_three (by simp [len']), tail 12,
    tail 28] at same
  have long : ∀ {x : Octets}, x.length = 4 → (load 16 (x ++ e.toList)).toList = x ++ e.toList.take 12 := fun {x} hx => by
    rw [toList_load_of_le (by simp [hx]), List.take_append, hx, List.take_of_length_le (by omega)]
  have bytes : load 16 (h ++ e.toList) = load 16 (h' ++ e.toList) := by
    refine keyStream_first_block (fun x => fullKey_third x _ _) (fun i hi => ?_) same
    rw [get_eq_getD, get_eq_getD, long len, long len']
    by_cases first : i.val = 0
    · rw [first, List.getD_append _ _ _ _ (by omega), List.getD_append _ _ _ _ (by omega)]
      exact type
    · have out : 4 ≤ i.val := by
        simp only [List.mem_cons, List.not_mem_nil, or_false, not_or, Fin.ext_iff] at hi
        have : ((1 : Fin 16).val = 1) ∧ ((2 : Fin 16).val = 2) ∧ ((3 : Fin 16).val = 3) := ⟨rfl, rfl, rfl⟩
        omega
      rw [List.getD_append_right _ _ _ _ (by omega), List.getD_append_right _ _ _ _ (by omega), len, len']
  have lists := congrArg List.Vector.toList bytes
  rw [long len, long len'] at lists
  exact (List.append_inj lists (len.trans len'.symm)).1

/-! ### The parsers -/

/-- The TCP receive path for one message: `asym_hdr`, then `asym_ts`. -/
def asymReceive (b : Backend) (key : Block) : Hs (Word 32 × Int64) := do
  let epk ← asymHdr
  let ts ← asymTs b epk key
  pure (epk, ts)

/-- What a message brings if its timestamp is authenticated with the header given. -/
def stampBehind (header m : Octets) (key : Block) : Option (Word 32 × Int64) :=
  let r := aegisPureDecrypt ((m.drop 36).take 8) (header ++ (ephOf m).toList) (Word.zero 16) key (load 16 (m.drop 44))
  if r.ret ≠ 0 then none else some (ephOf m, bytesTs r.dst)

section Parsers
variable {b b' : Backend} {m : Octets} {key : Block} {s : World}

/-- However the bytes of the message arrive. -/
theorem asymReceive_arriving (len : m.length = 60) (arrives : arriving s.inbox = some m) :
    (asymReceive b key s).1 = stampBehind asymHeader m key := by
  obtain ⟨q, q', hfirst, hsecond⟩ := reads_of_arriving (r := []) len (by rw [List.append_nil]; exact arrives)
  have hhdr : asymHdr s = (some (ephOf m), { s with inbox := q }) := Run.bind_some hfirst
  have hts : asymTs b (ephOf m) key { s with inbox := q } = _ := asymTs_eq hsecond
  simp only [aegisDecrypt_eq, List.drop_drop] at hts
  have hres : ∀ {o s'}, asymTs b (ephOf m) key { s with inbox := q } = (o, s') →
      (asymReceive b key s).1 = o.map (ephOf m, ·) := by
    intro o s' h
    rw [asymReceive, Run.bind_some hhdr]
    cases o with
    | none => rw [Run.bind_none h, Option.map_none]
    | some ts =>
      rw [Run.bind_some h]
      rfl
  rw [hres hts, stampBehind]
  split <;> rfl

theorem udpHsParse_behind (len : m.length = 60) :
    udpHsParse b m key = if m.getD 0 0 ≠ frameHandshake then none else stampBehind (m.take 4) m key := by
  have heph : load 32 (m.drop 4) = ephOf m := by
    have split : m.drop 4 = (m.take 36).drop 4 ++ m.drop 36 := by
      rw [← List.drop_append_of_le_length (by simp [len]), List.take_append_drop]
    rw [split, load_append (by simp [len]), ephOf]
  rw [udpHsParse, heph]
  simp only [aegisDecrypt_eq, stampBehind]

/-- A message of either transport, behind any header. -/
theorem stampBehind_asymBody {front : Octets} {e : Word 32} (len : front.length = 36) (heph : front.drop 4 = e.toList)
    (ts : Int64) : stampBehind asymHeader (front ++ asymBody b e ts key) key = some (e, ts) := by
  have hct : (aegisPureEncrypt (tsBytes ts) (asymHeader ++ e.toList) (Word.zero 16) key).1.length = 8 := by simp
  have hof : ephOf (front ++ asymBody b e ts key) = e := by
    rw [ephOf, List.take_left' len, heph, load_toList]
  have hbody : (front ++ asymBody b e ts key).drop 36 = asymBody b e ts key := List.drop_left' len
  have htag : ((front ++ asymBody b e ts key).drop 36).drop 8 = (asymBody b e ts key).drop 8 := by rw [hbody]
  rw [List.drop_drop] at htag
  rw [stampBehind, hof, hbody, htag]
  simp only [asymBody, aegisEncrypt_eq]
  rw [List.take_left' hct, List.drop_left' hct, load_toList, aegisPureDecrypt_encrypt]
  simp [bytesTs_tsBytes]

/-- Bytes that are shifted in one after the other can be told apart as long as there are at most eight. -/
theorem foldl_byte_inj {l l' : Octets} (len : l.length = l'.length) (few : l.length ≤ 8) {a a' : UInt64}
    (ha : a.toNat < 256 ^ (8 - l.length)) (ha' : a'.toNat < 256 ^ (8 - l.length))
    (same : l.foldl (fun (tb : UInt64) (x : UInt8) => (tb <<< 8) ||| x.toUInt64) a =
      l'.foldl (fun (tb : UInt64) (x : UInt8) => (tb <<< 8) ||| x.toUInt64) a') : a = a' ∧ l = l' := by
  induction l generalizing l' a a' with
  | nil =>
    obtain rfl : l' = [] := List.length_eq_zero_iff.mp len.symm
    exact ⟨same, rfl⟩
  | cons x l ih =>
    obtain _ | ⟨x', l'⟩ := l'
    · cases len
    · rw [List.length_cons] at few ha ha'
      have room : ∀ {c : UInt64} (y : UInt8), c.toNat < 256 ^ (8 - (l.length + 1)) →
          c.toNat < 2 ^ 56 ∧ (c <<< 8 ||| y.toUInt64).toNat < 256 ^ (8 - l.length) := by
        intro c y hc
        have low : 256 ^ (8 - (l.length + 1)) ≤ 256 ^ 7 := Nat.pow_le_pow_right (by decide) (by omega)
        have step : 256 ^ (8 - l.length) = 256 ^ (8 - (l.length + 1)) * 256 := by rw [← Nat.pow_succ]; congr 1; omega
        have hy := y.toNat_lt
        have bound : c.toNat < 2 ^ 56 := by omega
        rw [toNat_shl_or _ _ bound]
        omega
      obtain ⟨ba, bx⟩ := room x ha
      obtain ⟨ba', bx'⟩ := room x' ha'
      obtain ⟨acc, rfl⟩ := ih (Nat.succ.inj len) (by omega) bx bx' same
      have sums := congrArg UInt64.toNat acc
      rw [toNat_shl_or _ _ ba, toNat_shl_or _ _ ba'] at sums
      have hx := x.toNat_lt
      have hx' := x'.toNat_lt
      obtain rfl : a = a' := UInt64.toNat_inj.mp (by omega)
      obtain rfl : x = x' := UInt8.toNat_inj.mp (by omega)
      exact ⟨rfl, rfl⟩

theorem bytesTs_inj {l l' : Octets} (len : l.length = 8) (len' : l'.length = 8) (same : bytesTs l = bytesTs l') : l = l' := by
  have words := congrArg Int64.toUInt64 same
  rw [bytesTs, bytesTs, UInt64.toUInt64_toInt64, UInt64.toUInt64_toInt64] at words
  have start : (0 : UInt64).toNat < 256 ^ (8 - l.length) := by rw [len]; decide
  exact (foldl_byte_inj (len.trans len'.symm) len.le start start words).2

theorem stampBehind_some {header : Octets} {e : Word 32} {ts : Int64} (len : m.length = 60)
    (h : stampBehind header m key = some (e, ts)) :
      bytesTs (mask ((m.drop 36).take 8) (keyStream (aegisStart (header ++ e.toList) (Word.zero 16) key))) = ts := by
  have short : ((m.drop 36).take 8).length = 8 := by simp [len]
  have text : ∀ S, (aegisDuplex.decText S ((m.drop 36).take 8)).1 = mask ((m.drop 36).take 8) (keyStream S) := fun S => by
    have tail : aegisDuplex.decTail S ((m.drop 36).take 8) = (mask ((m.drop 36).take 8) (keyStream S), _) :=
      if_pos (by rw [short]; decide)
    rw [Duplex.decText, short]
    exact congrArg Prod.fst tail
  rw [stampBehind, aegisPureDecrypt_eq, text] at h
  split at h
  · obtain ⟨rfl, hts⟩ := Prod.mk.inj (Option.some.inj h)
    exact hts
  · cases h

theorem mask_inj {l : Octets} {w w' : Block} (same : mask l w = mask l w') {i : Fin 16} (hi : i.val < l.length) :
    w.get i = w'.get i := by
  have entry : ∀ v : Block, (mask l v).getD i.val 0 = l.getD i.val 0 ^^^ v.get i := fun v => by
    have hv : i.val < v.toList.length := by rw [v.toList_length]; exact i.isLt
    rw [get_eq_getD, mask, List.getD_eq_getElem _ _ (by simp; omega), List.getElem_zipWith, List.getD_eq_getElem _ _ hi,
      List.getD_eq_getElem _ _ hv]
  have bytes := congrArg (·.getD i.val 0) same
  simp only [entry] at bytes
  exact (UInt8.xor_right_inj _).mp bytes

/-- Under `fullKey` a message is not accepted with the same timestamp behind two headers of one type. -/
theorem stampBehind_header {h h' : Octets} {e : Word 32} {ts : Int64} (len : m.length = 60) (hlen : h.length = 4)
    (hlen' : h'.length = 4) (type : h.getD 0 0 = h'.getD 0 0) (ok : stampBehind h m fullKey = some (e, ts))
    (ok' : stampBehind h' m fullKey = some (e, ts)) : h = h' := by
  have short : ((m.drop 36).take 8).length = 8 := by simp [len]
  have stamps := (stampBehind_some len ok).trans (stampBehind_some len ok').symm
  have texts := bytesTs_inj (by simp [short]) (by simp [short]) stamps
  refine keyStream_header hlen hlen' type fun i hi => mask_inj texts ?_
  simp only [List.mem_cons, List.not_mem_nil, or_false] at hi
  rw [short]
  rcases hi with rfl | rfl | rfl <;> decide

end Parsers

/-! ### The same messages -/

theorem sendAllRound_some {pending rest : Octets} {k : Sent} (h : sendAllRound pending k = some rest) :
    k.bytes pending ++ rest = pending := by
  rcases k with k | _ | _ | _
  · cases k with
    | zero => cases h
    | succ k =>
      obtain rfl := Option.some.inj h
      exact List.take_append_drop (k + 1) pending
  · exact (Option.some.inj h).symm
  · cases h
  · cases h

/-- When `send_all` gets through, all its bytes are out. -/
theorem sendLoop_some {pending : Octets} {q : List Sent} (h : (sendLoop pending q).1 = some ()) :
    (sendLoop pending q).2.1 = pending := by
  induction q generalizing pending with
  | nil => rfl
  | cons k q ih =>
    rw [sendLoop] at h ⊢
    split at h
    next empty => rw [if_pos empty, List.isEmpty_iff.mp empty]
    next some_ =>
      rw [if_neg some_]
      cases round : sendAllRound pending k with
      | none =>
        rw [round] at h
        cases h
      | some rest =>
        rw [round] at h
        exact (congrArg (k.bytes pending ++ ·) (ih h)).trans (sendAllRound_some round)

/-- Both parsers read the message `m` as `(e, ts)`; over TCP however its bytes arrive. -/
structure Recovered (b : Backend) (key : Block) (m : Octets) (e : Word 32) (ts : Int64) : Prop where
  tcp : ∀ s : World, arriving s.inbox = some m → (asymReceive b key s).1 = some (e, ts)
  udp : udpHsParse b m key = some (e, ts)

theorem recovered_asymWire (b b' : Backend) (key : Block) (e : Word 32) (ts : Int64) :
    Recovered b' key (asymWire b e ts key) e ts := by
  constructor
  · intro s arrives
    rw [asymReceive_arriving (length_asymWire ..) arrives, asymWire_eq]
    exact stampBehind_asymBody (by simp [asymHeader]) (List.drop_left' rfl) ts
  · exact udpHsParse_udpHsBuild

/-- The parsers accept `m` with the same ephemeral keys and timestamps. -/
def SameParse (b b' : Backend) (key : Block) (m : Octets) : Prop :=
  ∀ s : World, arriving s.inbox = some m → ∀ e ts, (asymReceive b key s).1 = some (e, ts) ↔ udpHsParse b' m key = some (e, ts)

section Header
variable {b b' : Backend} {header : Word 4} {e : Word 32}

/-- A message behind another header is still read over TCP, since the header is dropped there. -/
theorem header_of_sameParse
    (same : ∀ rest : Word 24, SameParse b b' fullKey (header.toList ++ e.toList ++ rest.toList)) :
    header.toList = asymHeader := by
  obtain ⟨m, hm⟩ : ∃ m, m = header.toList ++ e.toList ++ asymBody b e 0 fullKey := ⟨_, rfl⟩
  have len : m.length = 60 := by simp [hm, length_asymBody]
  have body : (load 24 (asymBody b e 0 fullKey)).toList = asymBody b e 0 fullKey := by
    rw [toList_load_of_le (length_asymBody ..).ge, List.take_of_length_le (length_asymBody ..).le]
  have agree := same (load 24 (asymBody b e 0 fullKey))
  rw [body, ← hm] at agree
  have tcp : stampBehind asymHeader m fullKey = some (e, 0) := by
    rw [hm]
    exact stampBehind_asymBody (by simp) (List.drop_left' (by simp)) 0
  have udp := (agree ⟨byteByByte m, [], [], [], [], [], replayInit⟩ (arriving_byteByByte m) e 0).mp
    ((asymReceive_arriving len (arriving_byteByByte m)).trans tcp)
  have four : m.take 4 = header.toList := by
    rw [hm, List.append_assoc, List.take_left' (by simp)]
  rw [udpHsParse_behind len, four] at udp
  split at udp
  · cases udp
  next type =>
    have first : m.getD 0 0 = header.toList.getD 0 0 := by
      rw [hm, List.append_assoc, List.getD_append _ _ _ _ (by simp)]
    exact stampBehind_header len (by simp) rfl (first.symm.trans (not_not.mp type)) udp tcp

theorem sameParse_of_header (right : header.toList = asymHeader) (key : Block) (rest : Word 24) :
    SameParse b b' key (header.toList ++ e.toList ++ rest.toList) := by
  intro s arrives e' ts
  have len : (header.toList ++ e.toList ++ rest.toList).length = 60 := by simp
  have four : (header.toList ++ e.toList ++ rest.toList).take 4 = asymHeader := by
    rw [List.append_assoc, List.take_left' (by simp), right]
  have type : (header.toList ++ e.toList ++ rest.toList).getD 0 0 = frameHandshake := by
    rw [right]
    rfl
  rw [asymReceive_arriving len arrives, udpHsParse_behind len, if_neg (not_not_intro type), four]

end Header

/-- Both parsers recover what either transport sends. Beyond that they accept the same messages behind the
    header that both transports send, and behind no other one, whatever the ephemeral key. -/
theorem wire_format_iff (b b' : Backend) :
    (∀ key e ts, Recovered b' key (udpHsBuild b e ts key) e ts ∧
      ∀ s, (asymSend b e ts key s).1 = some () →
        ∃ m, (asymSend b e ts key s).2.outbox = s.outbox ++ m ∧ Recovered b' key m e ts) ∧
    ∀ (header : Word 4) (e : Word 32),
      (∀ (key : Block) (rest : Word 24), SameParse b b' key (header.toList ++ e.toList ++ rest.toList)) ↔
        header.toList = asymHeader := by
  refine ⟨fun key e ts => ⟨recovered_asymWire b b' key e ts, fun s sent => ?_⟩, fun header e => ⟨?_, ?_⟩⟩
  · refine ⟨asymWire b e ts key, ?_, recovered_asymWire b b' key e ts⟩
    exact congrArg (s.outbox ++ ·) (sendLoop_some sent)
  · intro same
    exact header_of_sameParse (same fullKey)
  · intro right key rest
    exact sameParse_of_header right key rest

/-- A message with the type of a data frame is taken for a handshake message over TCP, and not over UDP. -/
theorem tcp_ignores_header : ¬ ∀ (m : Octets) (key : Block), m.length = 60 → SameParse .pureC .pureC key m := by
  intro same
  let m := [frameData, 0, 0, 0] ++ (Word.zero 32).toList ++ asymBody .pureC (Word.zero 32) 0 (Word.zero 16)
  have len : m.length = 60 := by simp [m, length_asymBody]
  have tcp : stampBehind asymHeader m (Word.zero 16) = some (Word.zero 32, 0) :=
    stampBehind_asymBody (by simp) (List.drop_left' rfl) 0
  have udp := (same m (Word.zero 16) len ⟨byteByByte m, [], [], [], [], [], replayInit⟩ (arriving_byteByByte m) (Word.zero 32)
    0).mp ((asymReceive_arriving len (arriving_byteByByte m)).trans tcp)
  have type : m.getD 0 0 ≠ frameHandshake := by
    show frameData ≠ frameHandshake
    decide
  rw [udpHsParse_behind len, if_pos type] at udp
  cases udp

end AegisTunnel
