import AegisTunnel.Theorems.StartUp

/-! # The texts of public keys

`keyfile_generate` writes a public key as hex digits. Two decoders read such a text: `parse_hex`, for the
option -Q and the configuration, and `keyfile_load_public`, for files. -/

namespace AegisTunnel
open Octets

/-! ### Digits -/

theorem hexDigit_digitChar {n : Nat} (h : n < 16) : hexDigit (Nat.digitChar n) = some n := by
  revert n
  decide

theorem toChar_ofChar {c : Char} (h : c.toNat < 256) : toChar (ofChar c) = c := by
  rw [toChar, ofChar, UInt8.toNat_ofNat_of_lt' h, Char.ofNat_toNat]

theorem isBlank_of_hexDigit {c : Char} {n : Nat} (h : hexDigit c = some n) : isBlank c = false := by
  by_contra hblank
  have hc : isBlank c = true := by simpa using hblank
  simp only [isBlank, List.contains_iff_mem, List.mem_cons, List.not_mem_nil, or_false] at hc
  rcases hc with rfl | rfl | rfl | rfl <;> cases h

theorem digitChar_lt {n : Nat} (h : n < 16) : (Nat.digitChar n).toNat < 256 := by
  revert n
  decide

/-! ### The text that is written -/

theorem mem_hexByte {x : UInt8} {c : Char} (h : c ∈ hexByte x) : ∃ n < 16, c = Nat.digitChar n := by
  have hx := x.toNat_lt
  rcases List.mem_pair.mp h with rfl | rfl
  · exact ⟨_, by omega, rfl⟩
  · exact ⟨_, by omega, rfl⟩

theorem hexValue_hexByte_append (x : UInt8) (text : List Char) :
    hexValue (hexByte x ++ text) = (hexValue text).map (x :: ·) := by
  have hx := x.toNat_lt
  have hhi : hexDigit (Nat.digitChar (x.toNat / 16)) = some (x.toNat / 16) := hexDigit_digitChar (by omega)
  have hlo : hexDigit (Nat.digitChar (x.toNat % 16)) = some (x.toNat % 16) := hexDigit_digitChar (by omega)
  rw [hexByte, List.cons_append, List.cons_append, List.nil_append, hexValue, hhi, hlo]
  have hbyte : UInt8.ofNat (16 * (x.toNat / 16) + x.toNat % 16) = x := by
    rw [Nat.div_add_mod, UInt8.ofNat_toNat]
  cases hexValue text with
  | none => rfl
  | some bytes => exact congrArg (fun y => some (y :: bytes)) hbyte

theorem hexValue_flatMap (bytes : Octets) : hexValue (bytes.flatMap hexByte) = some bytes := by
  induction bytes with
  | nil => rfl
  | cons x bytes ih => rw [List.flatMap_cons, hexValue_hexByte_append, ih, Option.map_some]

theorem length_digits (key : Word 32) : (key.toList.flatMap hexByte).length = 64 := by
  rw [length_hexValue (hexValue_flatMap key.toList), List.Vector.toList_length]

theorem hexKey_flatMap (key : Word 32) : hexKey (key.toList.flatMap hexByte) = some key := by
  rw [hexKey, if_pos (length_digits key), hexValue_flatMap, Option.map_some, load_toList]

/-- Read from the file, the text is the one that was written. -/
theorem map_toChar_publicText (key : Word 32) : ((publicText key).map ofChar).map toChar = publicText key := by
  rw [List.map_map, List.map_congr_left, List.map_id]
  intro c hc
  apply toChar_ofChar
  rcases List.mem_append.mp hc with hc | hc
  · obtain ⟨x, -, hc⟩ := List.mem_flatMap.mp hc
    obtain ⟨n, hn, rfl⟩ := mem_hexByte hc
    exact digitChar_lt hn
  · obtain rfl := List.mem_singleton.mp hc
    decide

theorem filter_publicText (key : Word 32) :
    (publicText key).filter (fun c => !isBlank c) = key.toList.flatMap hexByte := by
  rw [publicText, List.filter_append]
  have hdigits : (key.toList.flatMap hexByte).filter (fun c => !isBlank c) = key.toList.flatMap hexByte := by
    apply List.filter_eq_self.mpr
    intro c hc
    obtain ⟨x, -, hc⟩ := List.mem_flatMap.mp hc
    obtain ⟨n, hn, rfl⟩ := mem_hexByte hc
    rw [isBlank_of_hexDigit (hexDigit_digitChar hn)]
    rfl
  rw [hdigits, List.filter_cons_of_neg (by decide), List.filter_nil, List.append_nil]

theorem length_publicText (key : Word 32) : (publicText key).length = 65 := by
  rw [publicText, List.length_append, length_digits]
  rfl

theorem fileKey_publicText (key : Word 32) : fileKey ((publicText key).map ofChar) = some key := by
  have hlen : ((publicText key).map ofChar).length = 65 := by rw [List.length_map, length_publicText]
  have hread : ((publicText key).map ofChar).take 127 = (publicText key).map ofChar := List.take_of_length_le (by omega)
  rw [fileKey, if_neg (by omega), hread, map_toChar_publicText, filter_publicText, List.take_of_length_le (length_digits key).le,
    hexKey_flatMap]

/-! ### The two decoders -/

/-- What `parse_hex` gives for 64 characters. -/
theorem parseHex_iff {text : List Char} (hlen : text.length = 64) (key : Word 32) :
    parseHex 32 text = (some 32, key.toList) ↔ hexKey text = some key := by
  constructor
  · intro h
    cases hkey : hexKey text with
    | none => exact absurd (congrArg Prod.fst h) (parseHex_of_none hkey hlen)
    | some other =>
      have hother := (parseHex_of_some hkey).2.2 []
      rw [h, List.append_nil, load_toList] at hother
      rw [hother]
  · intro h
    rw [hexKey, if_pos hlen] at h
    obtain ⟨bytes, hbytes, rfl⟩ := Option.map_eq_some_iff.mp h
    have hsize := length_hexValue hbytes
    have hparse := (parseHexBytes_eq (by omega)).1 bytes hbytes
    rw [toList_load_of_le (by omega), List.take_of_length_le (by omega)]
    simp [parseHex, hlen, hparse]

/-- A blank is no hex digit, so a text with one that is not cut is not a key for either decoder. -/
theorem hexValue_eq_none_of_blank {text : List Char} {c : Char} (hc : c ∈ text) (blank : isBlank c = true) :
    hexValue text = none := by
  induction text using hexValue.induct with
  | case1 => cases hc
  | case2 => rfl
  | case3 hi lo rest ih =>
    rw [hexValue]
    cases hhi : hexDigit hi with
    | none => rfl
    | some a =>
      cases hlo : hexDigit lo with
      | none => rfl
      | some l =>
        have hne : ∀ {d n}, hexDigit d = some n → c ≠ d := by
          rintro d n hd rfl
          rw [isBlank_of_hexDigit hd] at blank
          cases blank
        rcases List.mem_cons.mp hc with rfl | hc
        · exact absurd rfl (hne hhi)
        rcases List.mem_cons.mp hc with rfl | hc
        · exact absurd rfl (hne hlo)
        simp [ih hc]

/-- A file of 64 characters is read as these characters. -/
theorem fileKey_of_length {bytes : Octets} (h : bytes.length = 64) : fileKey bytes = hexKey (bytes.map toChar) := by
  have hread : bytes.take 127 = bytes := List.take_of_length_le (by omega)
  rw [fileKey, if_neg (by omega), hread]
  have hlen : (bytes.map toChar).length = 64 := by rw [List.length_map, h]
  by_cases solid : ∀ c ∈ bytes.map toChar, isBlank c = false
  · have hsame : (bytes.map toChar).filter (fun c => !isBlank c) = bytes.map toChar := by
      apply List.filter_eq_self.mpr
      intro c hc
      rw [solid c hc]
      rfl
    rw [hsame, List.take_of_length_le hlen.le]
  · obtain ⟨c, hmem⟩ := not_forall.mp solid
    obtain ⟨hc, blank⟩ := Classical.not_imp.mp hmem
    have hblank : isBlank c = true := Bool.not_eq_false _ ▸ blank
    have hshort : ((bytes.map toChar).filter fun c => !isBlank c).length < 64 := by
      rw [← hlen]
      exact List.length_filter_lt_length_iff_exists.mpr ⟨c, hc, by simp [hblank]⟩
    rw [hexKey, if_neg (by rw [List.length_take]; omega), hexKey, if_pos hlen, hexValue_eq_none_of_blank hc hblank]
    rfl

theorem toChar_eq_zero {x : UInt8} (h : toChar x = '\x00') : x = 0 := by
  have hx := x.toNat_lt
  have hvalid : x.toNat.isValidChar := Or.inl (by omega)
  have hnat : (toChar x).toNat = x.toNat := by
    rw [toChar, Char.ofNat, dif_pos hvalid]
    exact UInt32.toNat_ofNatLT ..
  rw [h] at hnat
  exact UInt8.toNat_inj.mp hnat.symm

theorem cString_of_not_mem {bytes : Octets} (h : 0 ∉ bytes) : cString (bytes.map toChar) = bytes.map toChar := by
  rw [cString, List.takeWhile_eq_self_iff]
  intro c hc
  obtain ⟨x, hx, rfl⟩ := List.mem_map.mp hc
  apply decide_eq_true
  intro hzero
  exact h (toChar_eq_zero hzero ▸ hx)

theorem cString_dropLast_publicText (key : Word 32) :
    cString (((publicText key).map ofChar).dropLast.map toChar) = key.toList.flatMap hexByte := by
  rw [List.map_dropLast, map_toChar_publicText, publicText, List.dropLast_concat, cString, List.takeWhile_eq_self_iff]
  intro c hc
  obtain ⟨x, -, hc⟩ := List.mem_flatMap.mp hc
  obtain ⟨n, hn, rfl⟩ := mem_hexByte hc
  have hdigit := hexDigit_digitChar hn
  apply decide_eq_true
  intro hzero
  rw [hzero] at hdigit
  cases hdigit

/-- A public key that has been written is read back by both decoders, and on 64 characters the decoders agree. -/
theorem key_codecs_agree :
    (∀ keys : KeyPair, ∃ privFile pubFile, keyfileGenerate (some keys) = some (privFile, pubFile) ∧
      keyfileLoadPublic (some pubFile) = some keys.pub ∧
        parseHex 32 (cString (pubFile.dropLast.map toChar)) = (some 32, keys.pub.toList)) ∧
    ∀ s : Octets, s.length = 64 → 0 ∉ s → ∀ k : Word 32,
      parseHex 32 (cString (s.map toChar)) = (some 32, k.toList) ↔ keyfileLoadPublic (some s) = some k := by
  refine ⟨?_, ?_⟩
  · intro keys
    refine ⟨_, _, rfl, ?_, ?_⟩
    · rw [keyfileLoadPublic_eq, Option.bind_some, fileKey_publicText]
    · rw [cString_dropLast_publicText, parseHex_iff (length_digits _), hexKey_flatMap]
  · intro s hlen nul k
    rw [cString_of_not_mem nul, parseHex_iff (by rw [List.length_map, hlen]), keyfileLoadPublic_eq, Option.bind_some,
      fileKey_of_length hlen]

/-- A key with capital and small digits is read by both decoders. -/
theorem key_codecs_agree_sample :
    keyfileLoadPublic (some (sampleKey.toList.map ofChar)) =
      some (load 32 (parseHex 32 (cString ((sampleKey.toList.map ofChar).map toChar))).2) := by
  have hlen : (sampleKey.toList.map ofChar).length = 64 := by decide +kernel
  have nul : 0 ∉ sampleKey.toList.map ofChar := by decide +kernel
  have hread : parseHex 32 (cString ((sampleKey.toList.map ofChar).map toChar)) =
      (some 32, (load 32 (parseHex 32 (cString ((sampleKey.toList.map ofChar).map toChar))).2).toList) := by
    decide +kernel
  exact (key_codecs_agree.2 _ hlen nul _).mp hread

end AegisTunnel
