import AegisTunnel.StartUp

/-! # The keys of the peers at start-up

The table that the modes find is compared with the keys that were given: by the option -Q, by the `[Peer]`
sections of the configuration, or by the directory of the peers. -/

namespace AegisTunnel
open Octets

/-! ### The keys that are given -/

/-- The bytes that a text of hex digits stands for. -/
def hexValue : List Char → Option Octets
  | [] => some []
  | [_] => none
  | hi :: lo :: rest => do
    let h ← hexDigit hi
    let l ← hexDigit lo
    let bytes ← hexValue rest
    some (UInt8.ofNat (16 * h + l) :: bytes)

/-- The key that is given as 64 hex digits. -/
def hexKey (text : List Char) : Option (Word 32) :=
  if text.length = 64 then (hexValue text).map (load 32) else none

/-- The key of a key file: its 32 bytes, or the 64 hex digits it starts with when blanks are skipped. -/
def fileKey (data : Octets) : Option (Word 32) :=
  if data.length = 32 then some (load 32 data)
  else hexKey ((((data.take 127).map toChar).filter fun c => !isBlank c).take 64)

/-- The key of the option -Q: hex digits, or the path of a key file. -/
def argumentKey (host : Host) (q : List Char) : Option (Word 32) :=
  if q.length = 64 ∧ '/' ∉ q ∧ '.' ∉ q then hexKey q else (host.files q).bind fileKey

/-- The texts of the keys in sections, up to the first section without one. -/
def keyTexts : List PeerSection → List (List Char)
  | [] => []
  | sec :: secs =>
    match sec.publicKey with
    | none => []
    | some v => v :: keyTexts secs

def configKeys (host : Host) : List (List Char) :=
  (host.config.map fun text => keyTexts (peerSections (iniconfLoad text))).getD []

/-- The key that is given for an entry of the table. -/
def givenKey (host : Host) (peerkeyFile : Option (List Char)) (i : Nat) : Option (Word 32) :=
  match peerkeyFile with
  | some q => if i = 0 then argumentKey host q else none
  | none =>
    if (configKeys host).any fun v => (hexKey v).isSome then (configKeys host)[i]?.bind hexKey
    else if i = 0 then (foundPeer host).bind fun path => (host.files path).bind fileKey
    else none

/-- There is a peer, and every entry that is counted holds the key given for it. -/
def ValidTable (given : Nat → Option (Word 32)) (t : PeerTable) : Prop :=
  1 ≤ t.peerCount ∧ ∀ i < t.peerCount, ∃ h : i < maxPeers, given i = some (t.asymPeers.get ⟨i, h⟩)

/-! ### Hex digits -/

theorem hexDigit_lt {c : Char} {n : Nat} (h : hexDigit c = some n) : n < 16 := by
  have sub : ∀ {a b : Char} {k : Nat}, a ≤ c ∧ c ≤ b → b.toNat - a.toNat < k → c.toNat - a.toNat < k := by
    intro a b k hc hk
    have hle : c.toNat ≤ b.toNat := hc.2
    omega
  unfold hexDigit at h
  split at h
  case isTrue hc =>
    obtain rfl := Option.some.inj h
    exact sub hc (by decide)
  split at h
  case isTrue hc =>
    obtain rfl := Option.some.inj h
    exact Nat.add_lt_of_lt_sub (sub hc (by decide))
  split at h
  case isTrue hc =>
    obtain rfl := Option.some.inj h
    exact Nat.add_lt_of_lt_sub (sub hc (by decide))
  cases h

theorem nibbles_eq {lo : Char} {h l : Nat} (hl : hexDigit lo = some l) : (h <<< 4) ||| l = 16 * h + l := by
  rw [← Nat.shiftLeft_add_eq_or_of_lt (i := 4) (hexDigit_lt hl), Nat.shiftLeft_eq]
  omega

theorem length_hexValue {text : List Char} {bytes : Octets} (h : hexValue text = some bytes) :
    text.length = 2 * bytes.length := by
  induction text using hexValue.induct generalizing bytes with
  | case1 =>
    obtain rfl := Option.some.inj h
    rfl
  | case2 c => cases h
  | case3 hi lo rest ih =>
    simp only [hexValue, Option.bind_eq_bind, Option.bind_eq_some_iff, Option.some.injEq] at h
    obtain ⟨a, ha, l, hl, tail, htail, rfl⟩ := h
    simp only [List.length_cons, ih htail]
    omega

/-- The loop of `parse_hex` gets to the end of a text of even length just if all its characters are hex digits. -/
theorem parseHexBytes_eq {text : List Char} (even : text.length % 2 = 0) :
    (∀ bytes, hexValue text = some bytes → parseHexBytes text = (bytes, true)) ∧
      (hexValue text = none → (parseHexBytes text).2 = false) := by
  induction text using hexValue.induct with
  | case1 => simp [hexValue, parseHexBytes]
  | case2 c => simp at even
  | case3 hi lo rest ih =>
    obtain ⟨whole, stopped⟩ := ih (by simp only [List.length_cons] at even; omega)
    cases hhi : hexDigit hi with
    | none => simp [hexValue, parseHexBytes, hhi]
    | some a =>
      cases hlo : hexDigit lo with
      | none => simp [hexValue, parseHexBytes, hhi, hlo]
      | some l =>
        cases hrest : hexValue rest with
        | none => simp [hexValue, parseHexBytes, hhi, hlo, hrest, stopped hrest]
        | some tail => simp [hexValue, parseHexBytes, hhi, hlo, hrest, whole tail hrest, nibbles_eq hlo]

theorem parseHex_of_some {v : List Char} {key : Word 32} (h : hexKey v = some key) :
    v.length = 64 ∧ (parseHex 32 v).1 = some 32 ∧ ∀ old, load 32 ((parseHex 32 v).2 ++ old) = key := by
  rw [hexKey] at h
  split at h
  case isFalse => cases h
  case isTrue hlen =>
    obtain ⟨bytes, hbytes, rfl⟩ := Option.map_eq_some_iff.mp h
    have hparse := (parseHexBytes_eq (by omega)).1 bytes hbytes
    have hsize := length_hexValue hbytes
    have heq : parseHex 32 v = (some 32, bytes) := by simp [parseHex, hlen, hparse]
    rw [heq]
    have hfull : 32 ≤ bytes.length := by omega
    exact ⟨hlen, rfl, fun old => load_append hfull old⟩

theorem parseHex_of_none {v : List Char} (h : hexKey v = none) (hlen : v.length = 64) : (parseHex 32 v).1 ≠ some 32 := by
  rw [hexKey, if_pos hlen, Option.map_eq_none_iff] at h
  have hparse := (parseHexBytes_eq (by omega)).2 h
  simp [parseHex, hlen, hparse]

/-! ### Key files -/

theorem hexLoop_full {bytes : Octets} (h : bytes.length = 32) (nibble : Option Nat) (text : List Char) :
    hexLoop bytes nibble text = some bytes := by
  cases text with
  | nil => rw [hexLoop]
  | cons c rest => rw [hexLoop, if_neg (by omega)]

theorem hexLoop_filter (text : List Char) {bytes : Octets} (h : bytes.length ≤ 32) (nibble : Option Nat) :
    hexLoop bytes nibble (text.filter fun c => !isBlank c) = hexLoop bytes nibble text := by
  induction text generalizing bytes nibble with
  | nil => rfl
  | cons c rest ih =>
    rcases Nat.eq_or_lt_of_le h with hfull | hlt
    · rw [hexLoop_full hfull, hexLoop_full hfull]
    cases hc : isBlank c with
    | true =>
      rw [List.filter_cons_of_neg (by simp [hc]), ih h, hexLoop, if_pos hlt, if_pos hc]
    | false =>
      rw [List.filter_cons_of_pos (by simp [hc]), hexLoop, hexLoop]
      cases hexDigit c with
      | none => simp [hc]
      | some val =>
        cases nibble with
        | none => simp [hc, ih h]
        | some hi =>
          have hnext : (bytes ++ [UInt8.ofNat ((hi <<< 4) ||| val)]).length ≤ 32 := by simpa using hlt
          simp only [hc, ih hnext, Bool.false_eq_true, if_false]

/-- Without blanks, the loop takes the digits in pairs until it has 32 bytes. -/
theorem hexLoop_pairs (k : Nat) {bytes : Octets} (h : bytes.length + k = 32) {text : List Char}
    (solid : ∀ c ∈ text, isBlank c = false) :
    (hexLoop bytes none text).filter (fun all => all.length = 32) =
      if 2 * k ≤ text.length then (hexValue (text.take (2 * k))).map (bytes ++ ·) else none := by
  induction k generalizing bytes text with
  | zero =>
    have hfull : bytes.length = 32 := by omega
    simp [hexLoop_full hfull, hfull, hexValue]
  | succ k ih =>
    have hshort : bytes.length < 32 := by omega
    have hne : ¬ bytes.length = 32 := by omega
    rcases text with _ | ⟨hi, _ | ⟨lo, rest⟩⟩
    · simp [hexLoop, hne]
    · have hblank := solid hi (by simp)
      rw [if_neg (by simp; omega), hexLoop, if_pos hshort, hblank]
      cases hexDigit hi <;> simp [hexLoop, hne]
    · have hpair : 2 * (k + 1) ≤ (hi :: lo :: rest).length ↔ 2 * k ≤ rest.length := by simp only [List.length_cons]; omega
      have htake : (hi :: lo :: rest).take (2 * (k + 1)) = hi :: lo :: rest.take (2 * k) := by
        rw [Nat.mul_succ, List.take_succ_cons, List.take_succ_cons]
      rw [hexLoop, if_pos hshort, solid hi (by simp), htake, hexValue]
      simp only [hpair]
      cases hexDigit hi with
      | none => simp
      | some a =>
        simp only [hexLoop, if_pos hshort, solid lo (by simp), Bool.false_eq_true, if_false]
        cases hlo : hexDigit lo with
        | none => simp
        | some l =>
          rw [ih (by simp; omega) fun c hc => solid c (by simp [hc]), nibbles_eq hlo]
          cases hexValue (rest.take (2 * k)) <;> simp

/-- `keyfile_load_public` accepts the key files, and no others. -/
theorem keyfileLoadPublic_eq (file : Option Octets) : keyfileLoadPublic file = file.bind fileKey := by
  cases file with
  | none => rfl
  | some data =>
    simp only [keyfileLoadPublic, fileKey, Option.bind_some]
    have hlen : (data.take 127).length = 32 ↔ data.length = 32 := by rw [List.length_take]; omega
    simp only [hlen]
    split
    case isTrue h => rw [List.take_of_length_le (by omega)]
    case isFalse =>
      have hsolid : ∀ c ∈ ((data.take 127).map toChar).filter (fun c => !isBlank c), isBlank c = false := by
        intro c hc
        simpa using (List.mem_filter.mp hc).2
      have hpairs := hexLoop_pairs 32 (show ([] : Octets).length + 32 = 32 from rfl) hsolid
      have hbind : ∀ result : Option Octets,
          (result.bind fun bytes => if bytes.length = 32 then some (load 32 bytes) else none) =
            (result.filter fun bytes => bytes.length = 32).map (load 32) := by
        intro result
        cases result with
        | none => rfl
        | some bytes => by_cases h : bytes.length = 32 <;> simp [h]
      have hsize : ∀ digits : List Char, min 64 digits.length = 64 ↔ 2 * 32 ≤ digits.length := by
        intro digits
        omega
      rw [hbind, ← hexLoop_filter _ (Nat.zero_le _), hpairs, hexKey, List.length_take]
      simp only [hsize, List.nil_append, Option.map_id']
      split <;> rfl

/-! ### The keys of the configuration -/

section Loading
variable {pi : Fin maxPeers} {v : List Char} {aip : Option (List Char)} {t : PeerTable}

theorem loadPeer_of_some {key : Word 32} (h : hexKey v = some key) :
    (loadPeer pi v aip t).peerCount = pi + 1 ∧ (loadPeer pi v aip t).asymPeers.get pi = key := by
  obtain ⟨hlen, hparse, hload⟩ := parseHex_of_some h
  simp only [loadPeer, hlen, hparse, hload, if_true, List.Vector.get_set_same, and_self]

/-- A text that is no key leaves the count, whatever it has written to the entry. -/
theorem loadPeer_of_none (h : hexKey v = none) : (loadPeer pi v aip t).peerCount = t.peerCount := by
  unfold loadPeer
  split
  case isFalse => rfl
  case isTrue hlen => rw [if_neg (parseHex_of_none h hlen)]

theorem loadPeer_asymPeers_of_ne {j : Fin maxPeers} (h : pi ≠ j) :
    (loadPeer pi v aip t).asymPeers.get j = t.asymPeers.get j := by
  unfold loadPeer
  dsimp only
  split
  · split <;> exact List.Vector.get_set_of_ne h _
  · rfl

end Loading

theorem loadPeers_asymPeers_of_lt {secs : List PeerSection} {t : PeerTable} {pi : Nat} {j : Fin maxPeers} (h : j < pi) :
    (loadPeers t pi secs).asymPeers.get j = t.asymPeers.get j := by
  induction secs generalizing t pi with
  | nil => rfl
  | cons sec secs ih =>
    rw [loadPeers]
    split
    case isFalse => rfl
    case isTrue hpi =>
      split
      · rfl
      · rw [ih (by omega), loadPeer_asymPeers_of_ne (by rintro rfl; exact absurd h (lt_irrefl _))]

/-- Every key of the configuration gets to the entry of its section. -/
theorem loadPeers_asymPeers {secs : List PeerSection} (t : PeerTable) {pi i : Nat} {v : List Char} {key : Word 32}
    (hv : (keyTexts secs)[i]? = some v) (hkey : hexKey v = some key) {j : Fin maxPeers} (hj : (j : Nat) = pi + i) :
    (loadPeers t pi secs).asymPeers.get j = key := by
  induction secs generalizing t pi i with
  | nil => simp [keyTexts] at hv
  | cons sec secs ih =>
    rw [keyTexts] at hv
    rw [loadPeers, dif_pos (show pi < maxPeers by omega)]
    cases htext : sec.publicKey with
    | none => simp [htext] at hv
    | some text =>
      simp only [htext] at hv ⊢
      cases i with
      | zero =>
        obtain rfl := Option.some.inj hv
        have hself : (⟨pi, by omega⟩ : Fin maxPeers) = j := Fin.ext hj.symm
        rw [loadPeers_asymPeers_of_lt (by omega), hself]
        exact (loadPeer_of_some hkey).2
      | succ i => exact ih _ (by simpa using hv) (by omega)

theorem loadPeers_peerCount_of_none {secs : List PeerSection} (t : PeerTable) (pi : Nat)
    (h : ∀ v ∈ keyTexts secs, hexKey v = none) : (loadPeers t pi secs).peerCount = t.peerCount := by
  induction secs generalizing t pi with
  | nil => rfl
  | cons sec secs ih =>
    rw [loadPeers]
    split
    case isFalse => rfl
    case isTrue =>
      rw [keyTexts] at h
      cases htext : sec.publicKey with
      | none => rfl
      | some text =>
        simp only [htext, List.mem_cons, forall_eq_or_imp] at h ⊢
        rw [ih _ _ h.2, loadPeer_of_none h.1]

/-- The peers are counted up to the last section with a key, those without a proper key among them included. -/
theorem loadPeers_peerCount {secs : List PeerSection} (t : PeerTable) (pi : Nat) (hmax : pi + secs.length ≤ maxPeers)
    {front rest : List (List Char)} {v : List Char} (hsplit : keyTexts secs = front ++ v :: rest)
    (hv : (hexKey v).isSome) (hrest : ∀ w ∈ rest, hexKey w = none) :
    (loadPeers t pi secs).peerCount = pi + front.length + 1 := by
  induction secs generalizing t pi front with
  | nil => simp [keyTexts] at hsplit
  | cons sec secs ih =>
    rw [List.length_cons] at hmax
    rw [keyTexts] at hsplit
    rw [loadPeers, dif_pos (show pi < maxPeers by omega)]
    cases htext : sec.publicKey with
    | none => simp [htext] at hsplit
    | some text =>
      simp only [htext] at hsplit ⊢
      cases front with
      | nil =>
        obtain ⟨rfl, hnext⟩ := List.cons.inj hsplit
        obtain ⟨key, hkey⟩ := Option.isSome_iff_exists.mp hv
        rw [loadPeers_peerCount_of_none _ _ (hnext ▸ hrest), (loadPeer_of_some hkey).1]
        rfl
      | cons first front =>
        have hnext := (List.cons.inj hsplit).2
        rw [ih _ _ (by omega) hnext, List.length_cons]
        omega

/-- The last element with a property. -/
theorem exists_last {α : Type} {p : α → Bool} {l : List α} (h : ∃ a ∈ l, p a = true) :
    ∃ front a rest, l = front ++ a :: rest ∧ p a = true ∧ ∀ c ∈ rest, p c = false := by
  induction l using List.reverseRecOn with
  | nil => simp at h
  | append_singleton l x ih =>
    cases hx : p x with
    | true => exact ⟨l, x, [], rfl, hx, by simp⟩
    | false =>
      obtain ⟨a, ha, hpa⟩ := h
      have hmem : a ∈ l := by
        rcases List.mem_append.mp ha with hmem | hmem
        · exact hmem
        · rw [List.mem_singleton.mp hmem, hx] at hpa
          cases hpa
      obtain ⟨front, b, rest, rfl, hb, hrest⟩ := ih ⟨a, hmem, hpa⟩
      refine ⟨front, b, rest ++ [x], by simp, hb, ?_⟩
      intro c hc
      rcases List.mem_append.mp hc with hc | hc
      · exact hrest c hc
      · rw [List.mem_singleton.mp hc, hx]

/-! ### The result -/

/-- The keys of the configuration: some proper ones, and after them none that is proper. -/
def ProperFirst (texts : List (List Char)) : Prop :=
  ∃ good bad, texts = good ++ bad ∧ good ≠ [] ∧ (∀ v ∈ good, (hexKey v).isSome) ∧ ∀ v ∈ bad, hexKey v = none

/-- With the last proper key singled out, the ones before it have to be proper. -/
theorem properFirst_iff {texts front rest : List (List Char)} {v : List Char} (hsplit : texts = front ++ v :: rest)
    (hv : (hexKey v).isSome) (hrest : ∀ w ∈ rest, hexKey w = none) :
    ProperFirst texts ↔ ∀ w ∈ front, (hexKey w).isSome := by
  constructor
  · rintro ⟨good, bad, hparts, -, hgood, hbad⟩ w hw
    rw [hsplit] at hparts
    rcases List.append_eq_append_iff.mp hparts with ⟨more, rfl, hmore⟩ | ⟨more, rfl, hmore⟩
    · exact hgood w (List.mem_append_left _ hw)
    · -- The proper ones end before `v`, which then is one of the others.
      rw [hbad v (hmore ▸ List.mem_append_right _ List.mem_cons_self)] at hv
      cases hv
  · intro hfront
    refine ⟨front ++ [v], rest, by simp [hsplit], by simp, ?_, hrest⟩
    intro w hw
    rcases List.mem_append.mp hw with hw | hw
    · exact hfront w hw
    · rw [List.mem_singleton.mp hw]
      exact hv

theorem mainStart_ok {host : Host} {o : Options} {t : PeerTable} (h : mainStart host o = .ok t) :
    fallbackKeys host o.peerkeyFile (((host.config.map iniconfLoad).map (configPeers o.peerkeyFile)).getD .init) = .ok t := by
  unfold mainStart at h
  dsimp only at h
  split at h
  · cases h
  · exact h

theorem length_keyTexts_le (secs : List PeerSection) : (keyTexts secs).length ≤ secs.length := by
  induction secs with
  | nil => exact le_refl 0
  | cons sec secs ih =>
    rw [keyTexts]
    split
    · exact Nat.zero_le _
    · exact Nat.succ_le_succ ih

theorem PeerTable.get_setFirst (t : PeerTable) (key : Word 32) : (t.setFirst key).asymPeers.get ⟨0, by decide⟩ = key :=
  List.Vector.get_set_same ..

/-- The option -Q gives the one key of the table. -/
theorem validTable_argument {host : Host} {q : List Char} {start t : PeerTable}
    (h : fallbackKeys host (some q) start = .ok t) : ValidTable (givenKey host (some q)) t := by
  have one : ∀ key, argumentKey host q = some key →
      ValidTable (givenKey host (some q)) { start.setFirst key with peerCount := 1 } := by
    intro key hkey
    refine ⟨le_refl 1, fun i hi => ?_⟩
    obtain rfl : i = 0 := Nat.lt_one_iff.mp hi
    exact ⟨by decide, by rw [givenKey, if_pos rfl, hkey, PeerTable.get_setFirst]⟩
  rw [fallbackKeys] at h
  split at h
  case isTrue hhex =>
    dsimp only at h
    split at h
    case isFalse => cases h
    case isTrue hparse =>
      obtain rfl := Except.ok.inj h
      apply one
      rw [argumentKey, if_pos hhex]
      cases hkey : hexKey q with
      | none => exact absurd hparse (parseHex_of_none hkey hhex.1)
      | some key =>
        have hload := (parseHex_of_some hkey).2.2 []
        rw [List.append_nil] at hload
        rw [hload]
  case isFalse hpath =>
    rw [keyfileLoadPublic_eq] at h
    split at h
    · cases h
    · next key hkey =>
      obtain rfl := Except.ok.inj h
      exact one key (by rw [argumentKey, if_neg hpath, hkey])

/-- The peers directory gives a key that is not counted. -/
theorem fallbackKeys_peerCount {host : Host} {start t : PeerTable} (h : fallbackKeys host none start = .ok t) :
    t.peerCount = start.peerCount ∧ (start.peerCount ≠ 0 → t = start) := by
  simp only [fallbackKeys] at h
  split at h
  case isFalse hcount =>
    obtain rfl := Except.ok.inj h
    exact ⟨rfl, fun _ => rfl⟩
  case isTrue hcount =>
    split at h
    · cases h
    · split at h
      · cases h
      · obtain rfl := Except.ok.inj h
        exact ⟨rfl, fun hne => absurd hcount hne⟩

theorem configPeers_none (host : Host) :
    ∃ secs : List PeerSection, secs.length ≤ maxPeers ∧ configKeys host = keyTexts secs ∧
      ((host.config.map iniconfLoad).map (configPeers none)).getD .init = loadPeers .init 0 secs := by
  cases hconfig : host.config with
  | none => exact ⟨[], Nat.zero_le _, by simp [configKeys, hconfig, keyTexts], rfl⟩
  | some text =>
    refine ⟨peerSections (iniconfLoad text), ?_, by simp [configKeys, hconfig], by simp [configPeers]⟩
    rw [peerSections, List.length_map, List.length_range]

/-- Of the keys of the configuration up to the last proper one, every one has to be proper. -/
theorem validTable_loadPeers {given : Nat → Option (Word 32)} {secs : List PeerSection} (hmax : secs.length ≤ maxPeers)
    (hgiven : ∀ i, given i = (keyTexts secs)[i]?.bind hexKey) {front rest : List (List Char)} {v : List Char}
    (hsplit : keyTexts secs = front ++ v :: rest) (hv : (hexKey v).isSome) (hrest : ∀ w ∈ rest, hexKey w = none) :
    ValidTable given (loadPeers .init 0 secs) ↔ ∀ w ∈ front, (hexKey w).isSome := by
  have hnumber := loadPeers_peerCount .init 0 (by omega) hsplit hv hrest
  constructor
  · rintro ⟨-, hentries⟩ w hw
    obtain ⟨i, hi, rfl⟩ := List.getElem_of_mem hw
    obtain ⟨hi', hentry⟩ := hentries i (by omega)
    rw [hgiven, hsplit, List.getElem?_append_left hi, List.getElem?_eq_getElem hi, Option.bind_some] at hentry
    rw [hentry, Option.isSome_some]
  · intro hfront
    refine ⟨by omega, fun i hi => ?_⟩
    have hin : i < (front ++ [v]).length := by
      rw [List.length_append, List.length_singleton]
      omega
    have htext : (keyTexts secs)[i]? = some (front ++ [v])[i] := by
      rw [hsplit, List.append_cons, List.getElem?_append_left hin, List.getElem?_eq_getElem hin]
    have hproper : (hexKey (front ++ [v])[i]).isSome := by
      rcases List.mem_append.mp (List.getElem_mem hin) with hmem | hmem
      · exact hfront _ hmem
      · rw [List.mem_singleton.mp hmem]
        exact hv
    obtain ⟨key, hkey⟩ := Option.isSome_iff_exists.mp hproper
    have hlt : i < (keyTexts secs).length := (List.getElem?_eq_some_iff.mp htext).1
    have hi' : i < maxPeers := (hlt.trans_le (length_keyTexts_le secs)).trans_le hmax
    have hentry : (loadPeers .init 0 secs).asymPeers.get ⟨i, hi'⟩ = key :=
      loadPeers_asymPeers .init htext hkey (Nat.zero_add i).symm
    exact ⟨hi', by rw [hgiven, htext, Option.bind_some, hkey, hentry]⟩

/-- Whenever `main` gets to its dispatch, the table is valid just if the peer key is given by the option -Q, or
the configuration has a proper key and no improper one before it. -/
theorem start_keys_iff (host : Host) (o : Options) (t : PeerTable) (h : mainStart host o = .ok t) :
    ValidTable (givenKey host o.peerkeyFile) t ↔ o.peerkeyFile.isSome ∨ ProperFirst (configKeys host) := by
  have hkeys := mainStart_ok h
  cases hq : o.peerkeyFile with
  | some q =>
    rw [hq] at hkeys
    simp only [Option.isSome_some, true_or, iff_true]
    exact validTable_argument hkeys
  | none =>
    rw [hq] at hkeys
    obtain ⟨secs, hmax, htexts, htable⟩ := configPeers_none host
    rw [htable] at hkeys
    obtain ⟨hcount, hsame⟩ := fallbackKeys_peerCount hkeys
    simp only [Option.isSome_none, Bool.false_eq_true, false_or]
    by_cases hany : ∃ v ∈ configKeys host, (hexKey v).isSome = true
    · obtain ⟨front, v, rest, hsplit, hv, hnone⟩ := exists_last hany
      have hrest : ∀ w ∈ rest, hexKey w = none := fun w hw => by simpa using hnone w hw
      have hnumber := loadPeers_peerCount .init 0 (by omega) (htexts ▸ hsplit) hv hrest
      obtain rfl := hsame (by omega)
      have hgiven : ∀ i, givenKey host none i = (keyTexts secs)[i]?.bind hexKey := by
        intro i
        rw [givenKey, if_pos (List.any_eq_true.mpr hany), htexts]
      rw [properFirst_iff hsplit hv hrest]
      exact validTable_loadPeers hmax hgiven (htexts ▸ hsplit) hv hrest
    · -- No key is counted: neither is the one of the directory.
      have hnone : ∀ w ∈ configKeys host, hexKey w = none := by
        intro w hw
        by_contra hsome
        exact hany ⟨w, hw, Option.isSome_iff_ne_none.mpr hsome⟩
      have hzero : t.peerCount = 0 := hcount.trans (loadPeers_peerCount_of_none .init 0 (htexts ▸ hnone))
      constructor
      · rintro ⟨hone, -⟩
        omega
      · rintro ⟨good, bad, hparts, hne, hgood, -⟩
        obtain ⟨w, hw⟩ := List.exists_mem_of_ne_nil good hne
        have hproper := hgood w hw
        rw [hnone w (hparts ▸ List.mem_append_left _ hw)] at hproper
        cases hproper

/-- A host whose configuration has peers with the given texts for keys, and whose files can be read. -/
def peersHost (texts : List String) : Host where
  config := some (texts.flatMap fun text => "[Peer]\nPublicKey = ".toList ++ text.toList ++ ['\n'])
  home := "/root".toList
  files := fun _ => some (List.replicate 32 7)
  peersDir := []

def serverOptions : Options where
  listenPort := 9000
  remoteStr := none
  privkeyFile := none
  peerkeyFile := none
  mode := "server".toList
  tunMode := false
  tunIp := []

def sampleKey : String := "00112233445566778899aabbccddeeff00112233445566778899AABBCCDDEEFF"

theorem mainStart_count {host : Host} {o : Options} {n : Nat}
    (h : (mainStart host o).toOption.map (·.peerCount) = some n) : ∃ t, mainStart host o = .ok t ∧ t.peerCount = n := by
  cases hstart : mainStart host o with
  | error e => simp [hstart, Except.toOption] at h
  | ok t => exact ⟨t, rfl, by simpa [hstart, Except.toOption] using h⟩

theorem start_keys_sample : ∃ t, mainStart (peersHost [sampleKey, "<peer-public-key>"]) serverOptions = .ok t ∧
    ValidTable (givenKey (peersHost [sampleKey, "<peer-public-key>"]) none) t := by
  obtain ⟨t, ht, -⟩ := mainStart_count
    (show (mainStart (peersHost [sampleKey, "<peer-public-key>"]) serverOptions).toOption.map (·.peerCount) = some 1 by
      decide +kernel)
  refine ⟨t, ht, (start_keys_iff _ serverOptions t ht).mpr (.inr ?_)⟩
  have htexts : configKeys (peersHost [sampleKey, "<peer-public-key>"]) =
      [sampleKey.toList, "<peer-public-key>".toList] := by decide +kernel
  rw [htexts]
  exact ⟨[sampleKey.toList], ["<peer-public-key>".toList], rfl, by decide, by decide +kernel, by decide +kernel⟩

/-- The other way round, the placeholder's entry is counted. -/
theorem start_keys_placeholder :
    ¬ ∀ host o t, mainStart host o = .ok t → ValidTable (givenKey host o.peerkeyFile) t := by
  intro hall
  obtain ⟨t, ht, hcount⟩ := mainStart_count
    (show (mainStart (peersHost ["<peer-public-key>", sampleKey]) serverOptions).toOption.map (·.peerCount) = some 2 by
      decide +kernel)
  obtain ⟨hlt, hentry⟩ := (hall _ _ t ht).2 0 (by omega)
  have hgiven : givenKey (peersHost ["<peer-public-key>", sampleKey]) none 0 = none := by decide +kernel
  rw [show serverOptions.peerkeyFile = none from rfl, hgiven] at hentry
  cases hentry

end AegisTunnel
