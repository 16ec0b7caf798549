import AegisTunnel.Crypto.Streaming
import AegisTunnel.Theorems.Conformance
import AegisTunnel.Theorems.Frame

/-! What the cipher absorbs: the blocks of the associated data and then those of the message, each padded
    with zeros. The cipher forgets where one ends and how long they were. A frame is not affected, since
    its header is the first block and carries the length. -/

namespace AegisTunnel
open Octets Reference

/-! ### Blocks and texts -/

theorem loopFed_eq_blocks (l : Octets) : loopFed ((l.length + 15) / 16) l = blocks l := by
  induction l using words_induction (n := 16) (by decide) with
  | short l few =>
    by_cases some_ : 0 < l.length
    · have one : (l.length + 15) / 16 = 1 := by omega
      rw [one, blocks_short some_ few.le]
      rfl
    · obtain rfl : l = [] := List.length_eq_zero_iff.mp (by omega)
      rfl
  | word w l ih =>
    have count : ((w.toList ++ l).length + 15) / 16 = (l.length + 15) / 16 + 1 := by
      rw [List.length_append, w.toList_length]
      omega
    rw [count, loopFed, load_toList_append, List.drop_left' w.toList_length, ih, blocks_word]

/-- The full blocks and the padded rest are the blocks of the text. -/
theorem adUpdateFed_eq (l : Octets) : adUpdateFed l = blocks l := by
  induction l using words_induction (n := 16) (by decide) with
  | short l few =>
    have none_ : l.length / 16 = 0 := Nat.div_eq_of_lt few
    simp only [adUpdateFed, none_, loopFed, Nat.zero_mul, Nat.sub_zero, List.drop_zero, List.nil_append]
    split
    next some_ => rw [blocks_short some_ few.le]
    next empty =>
      obtain rfl : l = [] := List.length_eq_zero_iff.mp (by omega)
      rfl
  | word w l ih =>
    have rest : (w.toList ++ l).drop ((l.length / 16 + 1) * 16) = l.drop (l.length / 16 * 16) := by
      rw [Nat.succ_mul, Nat.add_comm, ← List.drop_drop, List.drop_left' w.toList_length]
    have rem : (w.toList ++ l).length - (l.length / 16 + 1) * 16 = l.length - l.length / 16 * 16 := by
      rw [List.length_append, w.toList_length]
      omega
    simp only [adUpdateFed] at ih
    simp only [adUpdateFed, length_word_append, loopFed, load_toList_append, List.drop_left' w.toList_length, rest, rem,
      List.cons_append, ih, blocks_word]

theorem encFinalFed_eq (l : Octets) : encFinalFed l = blocks l := by
  rw [← adUpdateFed_eq, encFinalFed, Nat.mul_div_cancel _ (by decide : 0 < 16)]
  rfl

theorem blocks_append {l : Octets} (whole : 16 ∣ l.length) (r : Octets) : blocks (l ++ r) = blocks l ++ blocks r := by
  induction l using words_induction (n := 16) (by decide) with
  | short l few =>
    obtain rfl : l = [] := List.length_eq_zero_iff.mp (Nat.eq_zero_of_dvd_of_lt whole few)
    rfl
  | word w l ih =>
    rw [List.length_append, w.toList_length, Nat.dvd_add_right (Nat.dvd_refl 16)] at whole
    rw [List.append_assoc, blocks_word, blocks_word, ih whole, List.cons_append]

@[simp] theorem blocks_octets (bs : List Block) : blocks (bs.flatMap (·.toList)) = bs := by
  induction bs with
  | nil => rfl
  | cons b bs ih => rw [List.flatMap_cons, blocks_word, ih]

/-- A text is its blocks and its length. -/
theorem take_octets_blocks (l : Octets) : ((blocks l).flatMap (·.toList)).take l.length = l := by
  induction l using words_induction (n := 16) (by decide) with
  | short l few =>
    by_cases some_ : 0 < l.length
    · rw [blocks_short some_ few.le, List.flatMap_singleton, take_toList_load few.le]
    · obtain rfl : l = [] := List.length_eq_zero_iff.mp (by omega)
      rfl
  | word w l ih => rw [blocks_word, List.flatMap_cons, List.length_append, List.take_length_add_append, ih]

theorem eq_of_blocks_eq {l l' : Octets} (len : l.length = l'.length) (same : blocks l = blocks l') : l = l' := by
  rw [← take_octets_blocks l, ← take_octets_blocks l', same, len]

theorem blocks_eq_nil {l : Octets} (none_ : blocks l = []) : l = [] := by
  rw [← take_octets_blocks l, none_, List.flatMap_nil, List.take_nil]

/-! ### The blocks of an encryption -/

theorem absorbed_eq (ad m : Octets) : absorbed ad m = blocks ad ++ blocks m := by
  have hAd : (if ad.length > 0 then adUpdateFed ad else []) = blocks ad := by
    split
    · exact adUpdateFed_eq ad
    next none_ =>
      obtain rfl : ad = [] := List.length_eq_zero_iff.mp (by omega)
      rfl
  have hWhole : (if wholeBlocks m > 0 then encUpdateFed (m.take (wholeBlocks m)) else []) =
      blocks (m.take (wholeBlocks m)) := by
    split
    · exact loopFed_eq_blocks _
    next none_ =>
      have : wholeBlocks m = 0 := by omega
      rw [this, List.take_zero]
      rfl
  have whole : 16 ∣ (m.take (wholeBlocks m)).length := length_take_whole m ▸ Nat.dvd_mul_left 16 _
  simp only [absorbed, ← wholeBlocks.eq_def, hAd, hWhole, encFinalFed_eq]
  rw [List.append_assoc, ← blocks_append whole, List.take_append_drop]

/-- The tag is a function of the key, the nonce and the blocks absorbed. -/
theorem tag_eq_absorbed (m ad : Octets) (nonce key : Block) :
    (aegisPureEncrypt m ad nonce key).2 = aegisTag ((absorbed ad m).foldl stateUpdate128 (aegisInit key nonce)) := by
  have fold : ∀ S ms, absorb S ms = ms.foldl stateUpdate128 S := fun S ms => by rw [absorb, update_eq]
  rw [aegisPureEncrypt_eq_crypt, crypt_snd, ← absorb_append, absorbed_eq, ← fold]

/-- The tag is computed from the blocks absorbed, and nothing but the empty message without associated data is determined
    by them: the blocks of any other input can all be moved to the associated data, or all to the message. -/
theorem absorbed_determines_iff (ad m : Octets) :
    (∀ nonce key, (aegisPureEncrypt m ad nonce key).2 =
      aegisTag ((absorbed ad m).foldl stateUpdate128 (aegisInit key nonce))) ∧
    ((∀ ad' m', absorbed ad' m' = absorbed ad m → ad' = ad ∧ m' = m) ↔ ad = [] ∧ m = []) := by
  refine ⟨tag_eq_absorbed m ad, ?_⟩
  simp only [absorbed_eq]
  constructor
  · intro determined
    let octets := (blocks ad ++ blocks m).flatMap (·.toList)
    obtain ⟨-, noMessage⟩ := determined octets [] (by rw [blocks_octets, blocks_nil, List.append_nil])
    obtain ⟨noData, -⟩ := determined [] octets (by rw [blocks_octets, blocks_nil, List.nil_append])
    exact ⟨noData.symm, noMessage.symm⟩
  · rintro ⟨rfl, rfl⟩ ad' m' same
    rw [blocks_nil, List.append_nil, List.append_eq_nil_iff] at same
    exact ⟨blocks_eq_nil same.1, blocks_eq_nil same.2⟩

/-- A zero more or less at the end of the message, or at the end of the associated data, and a block
    moved from one to the other. -/
theorem absorbed_not_injective :
    (¬ ∀ ad₁ m₁ ad₂ m₂, absorbed ad₁ m₁ = absorbed ad₂ m₂ → ad₁ = ad₂ ∧ m₁ = m₂) ∧
      absorbed [] [1] = absorbed [] [1, 0] ∧ absorbed [1] [] = absorbed [1, 0] [] ∧
      absorbed [1] [] = absorbed [] [1] := by
  refine ⟨fun injective => ?_, by decide, by decide, by decide⟩
  have := (injective [] [1] [] [1, 0] (by decide)).2
  simp at this

/-! ### The blocks of a frame -/

/-- The frame with the header `head` whose tag comes of the blocks `bs`. -/
def frameOf (head d : Octets) (nonce key : Block) (bs : List Block) : Octets :=
  head ++ (aegisPureEncrypt d head nonce key).1 ++ (aegisTag (bs.foldl stateUpdate128 (aegisInit key nonce))).toList

/-- The frame builders are the cipher on these blocks. -/
theorem frameBuild_eq_fed (b : Backend) (type flags : UInt8) (d : Octets) (nonceCtr : UInt64) (key : Block) :
    frameBuild b type flags d nonceCtr key =
      (frameBuildFed type flags d).map (frameOf (frameHeader type flags d.length) d (nonceFromCounter nonceCtr) key) := by
  unfold frameBuild frameBuildFed
  split
  · rfl
  · rw [Option.map_some, frameOf, ← tag_eq_absorbed, aegisEncrypt_eq]

theorem frameBuildExplicit_eq_fed (b : Backend) (type flags : UInt8) (d : Octets) (nonce : Word 8) (key : Block) :
    frameBuildExplicit b type flags d (some nonce) key = (frameBuildExplicitFed type flags d (some nonce)).map
      (frameOf (frameHeader type flags d.length ++ nonce.toList) d (load 16 nonce.toList) key) := by
  unfold frameBuildExplicit frameBuildExplicitFed
  split
  · rfl
  · rw [Option.map_some, Option.map_some, frameOf, ← tag_eq_absorbed, aegisEncrypt_eq]

theorem frameHeader_inj {type flags type' flags' : UInt8} {n n' : Nat} {r r' : Octets} (hn : n ≤ frameMaxPayload)
    (hn' : n' ≤ frameMaxPayload) (same : frameHeader type flags n ++ r = frameHeader type' flags' n' ++ r') :
    type = type' ∧ flags = flags' ∧ n = n' ∧ r = r' := by
  have len := congrArg headerPayloadLen same
  rw [headerPayloadLen_frameHeader _ _ hn, headerPayloadLen_frameHeader _ _ hn'] at len
  simp only [frameHeader, List.cons_append, List.nil_append, List.cons.injEq] at same
  exact ⟨same.1, same.2.1, len, same.2.2.2.2⟩

/-- What is fed for a header that fits in a block and a payload whose length the header carries. -/
theorem absorbed_header_inj {type flags type' flags' : UInt8} {d d' r r' : Octets} (hd : d.length ≤ frameMaxPayload)
    (hd' : d'.length ≤ frameMaxPayload) (fits : r.length < 12) (len : r.length = r'.length)
    (same : absorbed (frameHeader type flags d.length ++ r) d = absorbed (frameHeader type' flags' d'.length ++ r') d') :
    type = type' ∧ flags = flags' ∧ d = d' := by
  have first : ∀ (t f : UInt8) (n : Nat) {x : Octets}, x.length < 12 →
      blocks (frameHeader t f n ++ x) = [load 16 (frameHeader t f n ++ x)] := fun t f n x few =>
    blocks_short (by simp) (by simp; omega)
  rw [absorbed_eq, absorbed_eq, first _ _ _ fits, first _ _ _ (len ▸ fits), List.singleton_append, List.singleton_append,
    List.cons.injEq] at same
  -- The first block is the header, and the header has the length of the payload.
  have headers : frameHeader type flags d.length ++ r = frameHeader type' flags' d'.length ++ r' := by
    have cut := congrArg (fun w : Block => w.toList.take (frameHeader type flags d.length ++ r).length) same.1
    have lengths : (frameHeader type flags d.length ++ r).length = (frameHeader type' flags' d'.length ++ r').length := by
      simp [len]
    rwa [take_toList_load (by simp; omega), lengths, take_toList_load (by simp; omega)] at cut
  obtain ⟨rfl, rfl, lengths, -⟩ := frameHeader_inj hd hd' headers
  exact ⟨rfl, rfl, eq_of_blocks_eq lengths same.2⟩

/-- A frame is built from the blocks that its input is fed to the cipher as, and two frames of one format that are fed as
    the same blocks are the same frame, under any keys and nonces. -/
theorem frames_unambiguous (type flags type' flags' : UInt8) (d d' : Octets) (bs : List Block) :
    ((∀ b nonceCtr key, frameBuild b type flags d nonceCtr key =
        (frameBuildFed type flags d).map (frameOf (frameHeader type flags d.length) d (nonceFromCounter nonceCtr) key)) ∧
      (frameBuildFed type flags d = some bs → frameBuildFed type' flags' d' = some bs →
        type = type' ∧ flags = flags' ∧ d = d')) ∧
    (∀ b nonce key, frameBuildExplicit b type flags d (some nonce) key =
        (frameBuildExplicitFed type flags d (some nonce)).map
          (frameOf (frameHeader type flags d.length ++ nonce.toList) d (load 16 nonce.toList) key)) ∧
      ∀ nonce nonce' : Word 8, frameBuildExplicitFed type flags d (some nonce) = some bs →
        frameBuildExplicitFed type' flags' d' (some nonce') = some bs → type = type' ∧ flags = flags' ∧ d = d' := by
  have plain : ∀ {t f : UInt8} {x : Octets}, frameBuildFed t f x = some bs →
      x.length ≤ frameMaxPayload ∧ absorbed (frameHeader t f x.length ++ []) x = bs := fun {t f x} h => by
    unfold frameBuildFed at h
    split at h
    · cases h
    · rw [List.append_nil]
      exact ⟨by omega, Option.some.inj h⟩
  have explicit : ∀ {t f : UInt8} {x : Octets} {nonce : Word 8}, frameBuildExplicitFed t f x (some nonce) = some bs →
      x.length ≤ frameMaxPayload ∧ absorbed (frameHeader t f x.length ++ nonce.toList) x = bs := fun {t f x nonce} h => by
    unfold frameBuildExplicitFed at h
    split at h
    · cases h
    · exact ⟨by omega, Option.some.inj h⟩
  refine ⟨⟨fun b => frameBuild_eq_fed b type flags d, fun h h' => ?_⟩, fun b => frameBuildExplicit_eq_fed b type flags d,
    fun nonce nonce' h h' => ?_⟩
  · obtain ⟨hd, fed⟩ := plain h
    obtain ⟨hd', fed'⟩ := plain h'
    exact absorbed_header_inj hd hd' (by simp) rfl (fed.trans fed'.symm)
  · obtain ⟨hd, fed⟩ := explicit h
    obtain ⟨hd', fed'⟩ := explicit h'
    exact absorbed_header_inj hd hd' (by simp) (by simp) (fed.trans fed'.symm)

/-- A trailing zero of a payload is seen by the cipher, in either format. -/
theorem frames_unambiguous_zero :
    (∃ bs, frameBuildFed frameData flagNone [7] = some bs ∧ frameBuildFed frameData flagNone [7, 0] ≠ some bs) ∧
      ∃ bs, frameBuildExplicitFed frameData flagNone [7] (some (Word.zero 8)) = some bs ∧
        frameBuildExplicitFed frameData flagNone [7, 0] (some (Word.zero 8)) ≠ some bs := by
  refine ⟨⟨_, rfl, fun h => ?_⟩, ⟨_, rfl, fun h => ?_⟩⟩
  · have := ((frames_unambiguous frameData flagNone frameData flagNone [7] [7, 0] _).1.2 rfl h).2.2
    simp at this
  · have := ((frames_unambiguous frameData flagNone frameData flagNone [7] [7, 0] _).2.2 (Word.zero 8) (Word.zero 8) rfl h).2.2
    simp at this

end AegisTunnel
