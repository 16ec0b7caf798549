import AegisTunnel.Frame
import AegisTunnel.Theorems.Accel

/-! The frame codecs: what a parser accepts is exactly what the builder produces, and distinct counters
    give distinct nonces. -/

namespace AegisTunnel
open Octets

/-! ### Nonces -/

@[simp] theorem length_counterBytes (k : Nat) (c : UInt64) : (counterBytes k c).length = k := by
  induction k generalizing c with
  | zero => rfl
  | succ k ih => simp [counterBytes, ih]

theorem toNat_low_byte (c : UInt64) : (c &&& 0xff).toUInt8.toNat = c.toNat % 256 := by
  rw [UInt64.toNat_toUInt8, UInt64.toNat_and]
  show (c.toNat &&& 255) % 256 = _
  rw [land_255, Nat.mod_mod]

theorem counterBytes_inj (k : Nat) (c c' : UInt64) (h : counterBytes k c = counterBytes k c') :
    c.toNat % 256 ^ k = c'.toNat % 256 ^ k := by
  induction k generalizing c c' with
  | zero => simp [Nat.mod_one]
  | succ k ih =>
    simp only [counterBytes, List.cons.injEq] at h
    have hlow : c.toNat % 256 = c'.toNat % 256 := by rw [← toNat_low_byte, ← toNat_low_byte, h.1]
    have hshift : ∀ x : UInt64, (x >>> 8).toNat = x.toNat / 256 := fun x => by
      simp [Nat.shiftRight_eq_div_pow]
    have hhigh := ih _ _ h.2
    rw [hshift, hshift] at hhigh
    rw [Nat.pow_succ', Nat.mod_mul, Nat.mod_mul, hlow, hhigh]

theorem nonceFromCounter_injective : Function.Injective nonceFromCounter := by
  intro c c' h
  have hlist := congrArg (fun w => w.toList.take 8) h
  simp only [nonceFromCounter, toList_load] at hlist
  rw [List.take_append_of_le_length (by simp), List.take_append_of_le_length (by simp)] at hlist
  simp only [List.take_of_length_le, length_counterBytes, Nat.reduceLeDiff] at hlist
  have hmod := counterBytes_inj 8 c c' hlist
  have := c.toNat_lt
  have := c'.toNat_lt
  exact UInt64.toNat_inj.mp (by omega)

/-! ### Headers -/

@[simp] theorem length_frameHeader (type flags : UInt8) (n : Nat) : (frameHeader type flags n).length = 4 := rfl

theorem headerPayloadLen_le (hdr : Octets) : headerPayloadLen hdr ≤ frameMaxPayload := by
  have h := (hdr.getD 2 0).toNat_lt
  have l := (hdr.getD 3 0).toNat_lt
  rw [headerPayloadLen, be16_eq, frameMaxPayload]
  omega

theorem headerPayloadLen_frameHeader (type flags : UInt8) {n : Nat} (hn : n ≤ frameMaxPayload) (r : Octets) :
    headerPayloadLen (frameHeader type flags n ++ r) = n := by
  rw [frameMaxPayload] at hn
  simp only [headerPayloadLen, frameHeader, List.cons_append, List.getD_cons_succ, List.getD_cons_zero]
  rw [be16_eq, land_255, land_255, Nat.shiftRight_eq_div_pow, UInt8.toNat_ofNat', UInt8.toNat_ofNat']
  omega

/-- The first four bytes of a buffer are the header of the type, flags and length read from them. -/
theorem take_four_eq_frameHeader {buf : Octets} (h : 4 ≤ buf.length) :
    buf.take 4 = frameHeader (buf.getD 0 0) (buf.getD 1 0) (headerPayloadLen buf) := by
  obtain ⟨t, f, hi, lo, rest, rfl⟩ : ∃ t f hi lo rest, buf = t :: f :: hi :: lo :: rest := by
    match buf, h with
    | t :: f :: hi :: lo :: rest, _ => exact ⟨t, f, hi, lo, rest, rfl⟩
  have hhi := hi.toNat_lt
  have hlo := lo.toNat_lt
  have e1 : (hi.toNat * 256 + lo.toNat) >>> 8 &&& 0xff = hi.toNat := by
    rw [land_255, Nat.shiftRight_eq_div_pow]
    omega
  have e2 : (hi.toNat * 256 + lo.toNat) &&& 0xff = lo.toNat := by
    rw [land_255]
    omega
  simp only [frameHeader, headerPayloadLen, be16_eq, List.getD_cons_succ, List.getD_cons_zero, e1, e2,
    UInt8.ofNat_toNat, List.take_succ_cons, List.take_zero]

/-! ### Bodies -/

/-- A body is accepted exactly when its payload encrypts to the ciphertext and the tag. -/
theorem parseBody_ok_iff {b : Backend} {header rest : Octets} {n : Nat} {nonce key : Block} {f : Frame} :
    parseBody b header rest n nonce key = .ok f ↔ f.type = header.getD 0 0 ∧ f.flags = header.getD 1 0 ∧
      aegisPureEncrypt f.payload header nonce key = (rest.take n, load 16 (rest.drop n)) := by
  obtain ⟨type, flags, d⟩ := f
  simp only [parseBody, aegisDecrypt_eq]
  generalize hr : aegisPureDecrypt (rest.take n) header nonce key (load 16 (rest.drop n)) = r
  obtain ⟨ret, dst⟩ := r
  constructor
  · intro h
    split at h
    next => cases h
    next hret =>
      have hret : ret = 0 := by simpa using hret
      subst hret
      simp only [ParseOut.ok.injEq, Frame.mk.injEq] at h
      obtain ⟨rfl, rfl, rfl⟩ := h
      exact ⟨rfl, rfl, aegisPureEncrypt_of_decrypt hr⟩
  · rintro ⟨rfl, rfl, h⟩
    have hdec := aegisPureDecrypt_encrypt d header nonce key
    rw [h, hr] at hdec
    cases hdec
    rfl

/-- What `aegis_encrypt` makes of a payload is accepted, with the type and flags of the header. -/
theorem parseBody_encrypt (b : Backend) (header d : Octets) (nonce key : Block) :
    parseBody b header ((aegisPureEncrypt d header nonce key).1 ++ (aegisPureEncrypt d header nonce key).2.toList)
      d.length nonce key = .ok ⟨header.getD 0 0, header.getD 1 0, d⟩ := by
  have hlen := length_aegisPureEncrypt d header nonce key
  rw [parseBody_ok_iff, List.take_left' hlen, List.drop_left' hlen, load_toList]
  exact ⟨rfl, rfl, rfl⟩

theorem parseBody_ok {b : Backend} {header rest : Octets} {n : Nat} {nonce key : Block} {f : Frame}
    (hlen : rest.length = n + 16) (h : parseBody b header rest n nonce key = .ok f) :
    f.type = header.getD 0 0 ∧ f.flags = header.getD 1 0 ∧ f.payload.length = n ∧
      rest = (aegisPureEncrypt f.payload header nonce key).1 ++
        (aegisPureEncrypt f.payload header nonce key).2.toList := by
  obtain ⟨ht, hf, henc⟩ := parseBody_ok_iff.mp h
  have hd := length_aegisPureEncrypt f.payload header nonce key
  rw [henc, List.length_take] at hd
  have htag : (rest.drop n).length = 16 := by rw [List.length_drop]; omega
  refine ⟨ht, hf, by omega, ?_⟩
  rw [henc, toList_load_of_le htag.ge, List.take_of_length_le htag.le, List.take_append_drop]

/-! ### Counter frames -/

section Counter
variable {b b' : Backend} {type flags : UInt8} {d buf : Octets} {ctr : UInt64} {key : Block}

theorem frameBuild_eq_none_iff : frameBuild b type flags d ctr key = none ↔ d.length > frameMaxPayload := by
  unfold frameBuild
  split <;> simp_all

theorem frameBuild_of_le (h : d.length ≤ frameMaxPayload) :
    frameBuild b type flags d ctr key = some (frameHeader type flags d.length ++
      (aegisPureEncrypt d (frameHeader type flags d.length) (nonceFromCounter ctr) key).1 ++
      (aegisPureEncrypt d (frameHeader type flags d.length) (nonceFromCounter ctr) key).2.toList) := by
  rw [frameBuild, if_neg (by omega)]
  simp

theorem length_frameBuild (h : frameBuild b type flags d ctr key = some buf) :
    d.length ≤ frameMaxPayload ∧ buf.length = frameHeaderLen + d.length + aegisTagLen := by
  by_cases hd : d.length ≤ frameMaxPayload
  · rw [frameBuild_of_le hd, Option.some.injEq] at h
    subst h
    refine ⟨hd, ?_⟩
    simp [frameHeaderLen, aegisTagLen]
    omega
  · rw [frameBuild_eq_none_iff.mpr (by omega)] at h
    cases h

theorem frameBuild_ne_nil (h : frameBuild b type flags d ctr key = some buf) : buf ≠ [] := by
  rintro rfl
  have := (length_frameBuild h).2
  simp only [List.length_nil, frameHeaderLen] at this
  omega

theorem frameParse_eq_parseBody (h : buf.length = frameHeaderLen + headerPayloadLen buf + aegisTagLen) :
    frameParse b buf ctr key =
      parseBody b (buf.take 4) (buf.drop 4) (headerPayloadLen buf) (nonceFromCounter ctr) key := by
  have hle := headerPayloadLen_le buf
  rw [frameParse, if_neg (by simp only [frameHeaderLen, aegisTagLen] at *; omega)]
  dsimp only
  rw [if_neg (not_not_intro h), if_neg (by omega)]
  rfl

theorem frameParse_length (h : frameParse b buf ctr key ≠ .malformed) :
    buf.length = frameHeaderLen + headerPayloadLen buf + aegisTagLen := by
  by_contra hlen
  apply h
  unfold frameParse
  split
  · rfl
  · dsimp only
    rw [if_pos hlen]

theorem frameParse_frameBuild (h : frameBuild b type flags d ctr key = some buf) :
    frameParse b' buf ctr key = .ok ⟨type, flags, d⟩ := by
  obtain ⟨hd, hlen⟩ := length_frameBuild h
  rw [frameBuild_of_le hd, Option.some.injEq, List.append_assoc] at h
  have hpl : headerPayloadLen buf = d.length := by rw [← h, headerPayloadLen_frameHeader type flags hd]
  have hhdr := length_frameHeader type flags d.length
  rw [frameParse_eq_parseBody (by rw [hlen, hpl]), hpl, ← h, List.take_left' hhdr, List.drop_left' hhdr,
    parseBody_encrypt]
  rfl

theorem frameBuild_of_frameParse {f : Frame} (h : frameParse b' buf ctr key = .ok f) :
    frameBuild b f.type f.flags f.payload ctr key = some buf := by
  have hlen : buf.length = frameHeaderLen + headerPayloadLen buf + aegisTagLen := by
    apply frameParse_length (b := b')
    rw [h]
    exact ParseOut.noConfusion
  have hle := headerPayloadLen_le buf
  simp only [frameHeaderLen, aegisTagLen] at hlen
  rw [frameParse_eq_parseBody hlen] at h
  obtain ⟨ht, hf, hd, hrest⟩ := parseBody_ok (by rw [List.length_drop]; omega) h
  have hhdr : buf.take 4 = frameHeader f.type f.flags f.payload.length := by
    rw [ht, hf, hd, take_four_eq_frameHeader (by omega)]
    rfl
  rw [frameBuild_of_le (by omega), ← hhdr, List.append_assoc, ← hrest, List.take_append_drop]

/-- Codec exactness: whatever the backends of the two ends, `frame_parse` returns 0 with a type, flags
    and payload exactly when `frame_build` makes the buffer from them, and `frame_build` fails exactly
    on payloads of more than 65535 bytes. -/
theorem frameParse_ok_iff (b b' : Backend) (buf : Octets) (ctr : UInt64) (key : Block) (type flags : UInt8)
    (d : Octets) :
    (frameParse b' buf ctr key = .ok ⟨type, flags, d⟩ ↔
      d.length ≤ 65535 ∧ frameBuild b type flags d ctr key = some buf) ∧
    (frameBuild b type flags d ctr key = none ↔ d.length > 65535) := by
  refine ⟨⟨fun h => ?_, fun h => frameParse_frameBuild h.2⟩, frameBuild_eq_none_iff⟩
  have hbuild := frameBuild_of_frameParse (b := b) h
  exact ⟨(length_frameBuild hbuild).1, hbuild⟩

end Counter

/-! ### Explicit-nonce frames -/

section Explicit
variable {b b' : Backend} {type flags : UInt8} {d buf : Octets} {r : Word 8} {key : Block}

theorem frameBuildExplicit_of_le (h : d.length ≤ frameMaxPayload) :
    frameBuildExplicit b type flags d (some r) key = some (frameHeader type flags d.length ++ r.toList ++
      (aegisPureEncrypt d (frameHeader type flags d.length ++ r.toList) (load 16 r.toList) key).1 ++
      (aegisPureEncrypt d (frameHeader type flags d.length ++ r.toList) (load 16 r.toList) key).2.toList) := by
  rw [frameBuildExplicit, if_neg (by omega)]
  simp

theorem length_frameBuildExplicit (h : frameBuildExplicit b type flags d (some r) key = some buf) :
    d.length ≤ frameMaxPayload ∧ buf.length = frameExplicitHeaderLen + d.length + aegisTagLen := by
  by_cases hd : d.length ≤ frameMaxPayload
  · rw [frameBuildExplicit_of_le hd, Option.some.injEq] at h
    subst h
    refine ⟨hd, ?_⟩
    simp [frameExplicitHeaderLen, aegisTagLen]
    omega
  · rw [frameBuildExplicit, if_pos (by omega)] at h
    cases h

theorem frameParseExplicit_eq_parseBody (h : buf.length = frameExplicitHeaderLen + headerPayloadLen buf + aegisTagLen) :
    frameParseExplicit b buf key =
      parseBody b (buf.take 12) (buf.drop 12) (headerPayloadLen buf) (load 16 ((buf.drop 4).take 8)) key := by
  have hle := headerPayloadLen_le buf
  rw [frameParseExplicit, if_neg (by simp only [frameExplicitHeaderLen, aegisTagLen] at *; omega)]
  dsimp only
  rw [if_neg (not_not_intro h), if_neg (by omega)]
  rfl

theorem frameParseExplicit_length (h : frameParseExplicit b buf key ≠ .malformed) :
    buf.length = frameExplicitHeaderLen + headerPayloadLen buf + aegisTagLen := by
  by_contra hlen
  apply h
  unfold frameParseExplicit
  split
  · rfl
  · dsimp only
    rw [if_pos hlen]

theorem frameParseExplicit_frameBuildExplicit (h : frameBuildExplicit b type flags d (some r) key = some buf) :
    frameParseExplicit b' buf key = .ok ⟨type, flags, d⟩ := by
  obtain ⟨hd, hlen⟩ := length_frameBuildExplicit h
  rw [frameBuildExplicit_of_le hd, Option.some.injEq, List.append_assoc] at h
  have hpl : headerPayloadLen buf = d.length := by
    rw [← h, List.append_assoc, headerPayloadLen_frameHeader type flags hd]
  have hhdr : (frameHeader type flags d.length ++ r.toList).length = 12 := by simp
  have hnonce : (buf.drop 4).take 8 = r.toList := by
    rw [← h, List.append_assoc, List.drop_left' (length_frameHeader ..), List.take_left' r.toList_length]
  rw [frameParseExplicit_eq_parseBody (by rw [hlen, hpl]), hpl, hnonce, ← h, List.take_left' hhdr,
    List.drop_left' hhdr, parseBody_encrypt]
  rfl

theorem frameBuildExplicit_of_frameParseExplicit {f : Frame} (h : frameParseExplicit b' buf key = .ok f) :
    ∃ r, frameBuildExplicit b f.type f.flags f.payload (some r) key = some buf := by
  have hlen : buf.length = frameExplicitHeaderLen + headerPayloadLen buf + aegisTagLen := by
    apply frameParseExplicit_length (b := b')
    rw [h]
    exact ParseOut.noConfusion
  have hle := headerPayloadLen_le buf
  simp only [frameExplicitHeaderLen, aegisTagLen] at hlen
  rw [frameParseExplicit_eq_parseBody hlen] at h
  obtain ⟨ht, hf, hd, hrest⟩ := parseBody_ok (by rw [List.length_drop]; omega) h
  have h8 : ((buf.drop 4).take 8).length = 8 := by
    rw [List.length_take, List.length_drop]
    omega
  have hnonce : (load 8 ((buf.drop 4).take 8)).toList = (buf.drop 4).take 8 := by
    rw [toList_load_of_le h8.ge, List.take_of_length_le h8.le]
  have hhdr : buf.take 12 = frameHeader f.type f.flags f.payload.length ++ (buf.drop 4).take 8 := by
    have h4 : buf.take 4 = frameHeader f.type f.flags f.payload.length := by
      rw [ht, hf, hd, take_four_eq_frameHeader (by omega)]
      simp [List.getD_eq_getElem?_getD]
    rw [← h4, ← List.take_add]
  refine ⟨load 8 ((buf.drop 4).take 8), ?_⟩
  rw [frameBuildExplicit_of_le (by omega), hnonce, ← hhdr, List.append_assoc, ← hrest, List.take_append_drop]

theorem frameParseExplicit_type {f : Frame} (h : frameParseExplicit b' buf key = .ok f) : f.type = buf.getD 0 0 := by
  obtain ⟨r, hbuild⟩ := frameBuildExplicit_of_frameParseExplicit (b := .pureC) h
  rw [frameBuildExplicit_of_le (length_frameBuildExplicit hbuild).1, Option.some.injEq] at hbuild
  rw [← hbuild]
  rfl

/-- Exactness of the explicit-nonce codec: whatever the backends of the two ends, `frame_parse_explicit`
    returns 0 with a type, flags and payload exactly when `frame_build_explicit` makes the buffer from
    them with some random draw. So whichever of the datagrams sent arrive, in whatever order and however
    often, each one decodes to the packet it was built from. -/
theorem frameParseExplicit_ok_iff (b b' : Backend) (key : Block) :
    (∀ (buf : Octets) (type flags : UInt8) (d : Octets), frameParseExplicit b' buf key = .ok ⟨type, flags, d⟩ ↔
      d.length ≤ 65535 ∧ ∃ r : Word 8, frameBuildExplicit b type flags d (some r) key = some buf) ∧
    ∀ sent delivered : List (Frame × Octets),
      (∀ p ∈ sent, ∃ r : Word 8, frameBuildExplicit b p.1.type p.1.flags p.1.payload (some r) key = some p.2) →
      delivered ⊆ sent →
      delivered.map (fun p => frameParseExplicit b' p.2 key) = delivered.map (fun p => .ok p.1) := by
  constructor
  · intro buf type flags d
    constructor
    · intro h
      obtain ⟨r, hr⟩ := frameBuildExplicit_of_frameParseExplicit (b := b) h
      exact ⟨(length_frameBuildExplicit hr).1, r, hr⟩
    · rintro ⟨-, r, hr⟩
      exact frameParseExplicit_frameBuildExplicit hr
  · intro sent delivered hsent hsub
    apply List.map_congr_left
    intro p hp
    obtain ⟨r, hr⟩ := hsent p (hsub hp)
    exact frameParseExplicit_frameBuildExplicit hr

/-- Two datagrams of one sender that arrive in the opposite order, the second of them twice. -/
theorem frameParseExplicit_reordered :
    ∃ x y : Octets, frameBuildExplicit .pureC frameData flagNone [1, 2, 3] (some (Word.zero 8)) (Word.zero 16) = some x ∧
      frameBuildExplicit .pureC frameKeepalive flagNone [] (some (load 8 [1])) (Word.zero 16) = some y ∧
      [y, x, y].map (fun buf => frameParseExplicit .pureC buf (Word.zero 16)) =
        [.ok ⟨frameKeepalive, flagNone, []⟩, .ok ⟨frameData, flagNone, [1, 2, 3]⟩, .ok ⟨frameKeepalive, flagNone, []⟩] := by
  refine ⟨_, _, frameBuildExplicit_of_le (by decide), frameBuildExplicit_of_le (by decide), ?_⟩
  generalize hx : frameHeader frameData flagNone [1, 2, 3].length ++ _ ++ _ ++ _ = x
  generalize hy : frameHeader frameKeepalive flagNone [].length ++ _ ++ _ ++ _ = y
  refine (frameParseExplicit_ok_iff .pureC .pureC (Word.zero 16)).2
    [(⟨frameData, flagNone, [1, 2, 3]⟩, x), (⟨frameKeepalive, flagNone, []⟩, y)]
    [(⟨frameKeepalive, flagNone, []⟩, y), (⟨frameData, flagNone, [1, 2, 3]⟩, x), (⟨frameKeepalive, flagNone, []⟩, y)]
    ?_ (by simp)
  simp only [List.forall_mem_cons, List.not_mem_nil, false_implies, implies_true, and_true]
  subst hx hy
  exact ⟨⟨_, frameBuildExplicit_of_le (by decide)⟩, _, frameBuildExplicit_of_le (by decide)⟩

end Explicit

end AegisTunnel
