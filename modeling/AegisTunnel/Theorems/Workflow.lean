import AegisTunnel.ClientModes
import AegisTunnel.Theorems.PeerCommands

/-! # From `keygen` to a started program

The steps of the usage text: `keygen`, `peer add` for some peers, `create tun` and `start tun`. The program that is started
knows just the peers that were added, in that order. -/

namespace AegisTunnel
open Octets Lines

/-! ### The table of the peers -/

theorem loadPeer_entries {t : PeerTable} {v : List Char} {key : Word 32} (hkey : hexKey v = some key)
    (more : t.peerCount < maxPeers) (aip : Option (List Char)) :
    (loadPeer ⟨t.peerCount, more⟩ v aip t).entries = t.entries ++ [⟨key, allowedTunIp aip⟩] ∧
      (loadPeer ⟨t.peerCount, more⟩ v aip t).peerCount = t.peerCount + 1 := by
  obtain ⟨len, parse, loaded⟩ := parseHex_of_some hkey
  generalize index : (⟨t.peerCount, more⟩ : Fin maxPeers) = pi
  have next : t.peerCount = pi := congrArg Fin.val index
  have new : loadPeer pi v aip t = ⟨t.asymPeers.set pi key, t.tunIps.set pi (allowedTunIp aip), t.peerCount + 1⟩ := by
    simp only [loadPeer, len, parse, loaded, if_true, next]
  have last : (List.finRange maxPeers).take (t.peerCount + 1) = (List.finRange maxPeers).take t.peerCount ++ [pi] := by
    rw [List.take_add_one, List.getElem?_eq_getElem (by rw [List.length_finRange]; exact more), List.getElem_finRange, ← index]
    rfl
  rw [new]
  refine ⟨?_, rfl⟩
  rw [PeerTable.entries, PeerTable.entries, last, List.map_append, List.map_singleton]
  congr 1
  · refine List.map_congr_left fun j hj => ?_
    have other : pi ≠ j := by
      obtain ⟨i, hi, rfl⟩ := List.getElem_of_mem hj
      rw [List.length_take] at hi
      rw [List.getElem_take, List.getElem_finRange]
      intro same
      have := congrArg Fin.val same
      simp only [Fin.val_cast] at this
      omega
    simp only [List.Vector.get_set_of_ne other]
  · simp only [List.Vector.get_set_same]

/-- Sections with proper keys up to the end give an entry each. -/
theorem loadPeers_entries {good rest : List PeerSection} {entries : List PeerEntry} (none_ : keyTexts rest = [])
    (keys : List.Forall₂ (fun s e => s.publicKey.bind hexKey = some e.pub ∧ allowedTunIp s.allowedIps = e.tunIp) good entries)
    {t : PeerTable} (fit : t.peerCount + good.length ≤ maxPeers) :
    (loadPeers t t.peerCount (good ++ rest)).entries = t.entries ++ entries ∧
      (loadPeers t t.peerCount (good ++ rest)).peerCount = t.peerCount + good.length := by
  induction keys generalizing t with
  | nil =>
    rw [List.nil_append, loadPeers_of_nil none_, List.append_nil]
    exact ⟨rfl, rfl⟩
  | @cons sec e good entries hsec _ ih =>
    obtain ⟨text, hkey⟩ := Option.bind_eq_some_iff.mp hsec.1
    rw [List.length_cons] at fit
    have more : t.peerCount < maxPeers := by omega
    have step := loadPeer_entries hkey.2 more sec.allowedIps
    rw [List.cons_append, loadPeers, dif_pos more, hkey.1, ← step.2]
    obtain ⟨all, count⟩ := ih (t := loadPeer ⟨t.peerCount, more⟩ text sec.allowedIps t) (by omega)
    refine ⟨all.trans ?_, count.trans ?_⟩
    · rw [step.1, hsec.2, List.append_assoc]
      rfl
    · rw [List.length_cons, step.2]
      omega

/-! ### `aegis.conf` after `keygen` and `peer add` -/

theorem hexText_keyText (key : Word 32) : HexText (keyText key) := .of_key (hexKey_flatMap key)

theorem keyText_injective {key key' : Word 32} (h : keyText key = keyText key') : key = key' :=
  Option.some.inj ((hexKey_flatMap key).symm.trans ((congrArg hexKey h).trans (hexKey_flatMap key')))

theorem publicHex_publicText (key : Word 32) : publicHex (some ((publicText key).map ofChar)) = keyText key := by
  have hex := hexText_keyText key
  have first : (publicText key).take 64 = keyText key := by
    rw [publicText, List.take_append_of_le_length (length_digits key).ge, List.take_of_length_le (length_digits key).le]
    rfl
  rw [publicHex, Option.getD_some, List.map_take, map_toChar_publicText, first]
  exact cString_of_text hex.bare.2

/-- A peer on the command line: its host, and its key. -/
structure AddedPeer where
  host : List Char
  key : Word 32

/-- A host that can stand in an entry, and that is not taken for a key. -/
structure HostName (host : List Char) : Prop where
  clean : Clean host
  room : host.length ≤ 300
  other : strstr host "PublicKey".toList = false

/-- `peer add` for one peer after the other. -/
def addPeers (iface : List Char) (files : List Char → Option (List Char)) (peers : List AddedPeer) (w : Workdir) : Workdir :=
  peers.foldl (fun w p => (cmdPeerAdd iface files p.host (keyText p.key) w).2) w

section Conf
variable (own : Word 32) (iface : List Char)

/-- The lines of `aegis.conf`, by sections. -/
def confBlocks (peers : List AddedPeer) : List (List (List Char)) :=
  [[confHeader "Interface", confEntry "PrivateKey" "~/.aegis-tunnel/private.key".toList, confEntry "PublicKey" (keyText own),
      confEntry "Port" "9000".toList, blankLine],
    [confHeader "Tunnel", confEntry "Keepalive" "30".toList, confEntry "NATInterface" iface]] ++
    peers.map fun p => peerSection (keyText p.key) p.host

/-- The section of a peer. -/
def AddedPeer.section (p : AddedPeer) : IniSection :=
  ⟨"Peer".toList, [⟨"PublicKey".toList, keyText p.key⟩, ⟨"Endpoint".toList, p.host⟩]⟩

/-- What `aegis.conf` says. -/
def confSections (peers : List AddedPeer) : List IniSection :=
  [⟨"Interface".toList, [⟨"PrivateKey".toList, "~/.aegis-tunnel/private.key".toList⟩, ⟨"PublicKey".toList, keyText own⟩,
      ⟨"Port".toList, "9000".toList⟩]⟩,
    ⟨"Tunnel".toList, [⟨"Keepalive".toList, "30".toList⟩, ⟨"NATInterface".toList, trim iface⟩]⟩] ++
    peers.map AddedPeer.section

def confText (peers : List AddedPeer) : List Char := (confBlocks own iface peers).flatten.flatten

theorem confText_nil : confText own iface [] = (defaultConf (keyText own) iface).flatten := rfl

theorem confText_concat (peers : List AddedPeer) (p : AddedPeer) :
    confText own iface (peers ++ [p]) = confText own iface peers ++ (peerSection (keyText p.key) p.host).flatten := by
  simp only [confText, confBlocks, List.map_append, List.map_singleton, ← List.append_assoc, List.flatten_append,
    List.flatten_singleton]

variable {own iface}

theorem confBlocks_writes (dev : OneLine iface) {peers : List AddedPeer} (hosts : ∀ p ∈ peers, HostName p.host) :
    List.Forall₂ Writes (confBlocks own iface peers) (confSections own iface peers) := by
  refine List.rel_append (.cons ?_ (.cons ?_ .nil)) ?_
  · exact Says.section (.cons rfl (by decide) (.cons rfl (hexText_keyText own).clean (.cons rfl (by decide) .blank)))
      (by decide) rfl
  · exact Says.section (.cons rfl (by decide) (Says.entry rfl dev)) (by decide) rfl
  · rw [List.forall₂_map_left_iff, List.forall₂_map_right_iff, List.forall₂_same]
    exact fun p hp => Says.blank.before (peerLines_writes (hexText_keyText p.key) (hosts p hp).clean)

theorem confText_reads (own : Word 32) (dev : OneLine iface) {peers : List AddedPeer} (hosts : ∀ p ∈ peers, HostName p.host) :
    ReadsAs (confText own iface peers) (confBlocks own iface peers).flatten (confSections own iface peers) :=
  readsAs_written (confBlocks_writes dev hosts)

end Conf

/-! ### A key that the file does not name -/

theorem infix_confEntry {key : String} {v needle : List Char} (h : needle <:+: confEntry key v)
    (solid : ' ' ∉ needle ∧ '\n' ∉ needle ∧ 1 < needle.length) : needle <:+: key.toList ∨ needle <:+: v := by
  rw [confEntry, List.append_assoc] at h
  rcases infix_split h solid.1 with h | h
  · exact .inl h
  · have h : needle <:+: ['='] ++ ' ' :: (v ++ ['\n']) := h
    rcases infix_split h solid.1 with h | h
    · exact absurd h.length_le (Nat.not_le.mpr solid.2.2)
    · rcases infix_split h solid.2.1 with h | h
      · exact .inr h
      · exact absurd h.length_le (Nat.not_le.mpr (Nat.lt_of_succ_lt solid.2.2))

/-- A line in which the loop of `cmd_peer_add` does not find the key. -/
def Unnamed (hx l : List Char) : Prop := (strstr l "PublicKey".toList && strstr l hx) = false

section Unnamed
variable {key : Word 32}

theorem unnamed_short {l : List Char} (short : l.length < 64) : Unnamed (keyText key) l := by
  rw [Unnamed, Bool.and_eq_false_iff, ← Bool.not_eq_true, ← Bool.not_eq_true, strstr_iff, strstr_iff]
  refine .inr fun there => ?_
  have len := there.length_le
  rw [(hexText_keyText key).length] at len
  omega

theorem unnamed_key {other : Word 32} (ne : key ≠ other) : Unnamed (keyText key) (confEntry "PublicKey" (keyText other)) := by
  have hex := hexText_keyText key
  rw [Unnamed, Bool.and_eq_false_iff, ← Bool.not_eq_true, ← Bool.not_eq_true, strstr_iff, strstr_iff]
  refine .inr fun there => ?_
  rcases infix_confEntry there ⟨hex.not_mem rfl, hex.not_mem rfl, by rw [hex.length]; decide⟩ with there | there
  · have len := there.length_le
    rw [hex.length] at len
    exact absurd len (by decide)
  · exact ne (keyText_injective (there.eq_of_length (hex.length.trans (hexText_keyText other).length.symm)))

theorem unnamed_endpoint {host : List Char} (name : HostName host) : Unnamed (keyText key) (confEntry "Endpoint" host) := by
  rw [Unnamed, Bool.and_eq_false_iff, ← Bool.not_eq_true, ← Bool.not_eq_true, strstr_iff, strstr_iff]
  refine .inl fun there => ?_
  rcases infix_confEntry there (by decide) with there | there
  · exact absurd there.length_le (by decide)
  · exact absurd (strstr_iff.mpr there) (by rw [name.other]; decide)

theorem unnamed_confBlocks {own : Word 32} {iface : List Char} (dev_le : iface.length < 16) {peers : List AddedPeer}
    (hosts : ∀ p ∈ peers, HostName p.host) (new : key ∉ own :: peers.map (·.key)) :
    ∀ l ∈ (confBlocks own iface peers).flatten, Unnamed (keyText key) l := by
  rw [List.mem_cons, not_or] at new
  have device : (confEntry "NATInterface" iface).length < 64 := by
    have name : "NATInterface".toList.length = 12 := by decide
    simp only [confEntry, List.length_append, List.length_cons, List.length_nil, name]
    omega
  rw [confBlocks, List.flatten_append, List.forall_mem_append]
  constructor
  · intro l hl
    simp only [List.flatten_cons, List.flatten_nil, List.append_nil, List.cons_append, List.nil_append, List.mem_cons,
      List.not_mem_nil, or_false] at hl
    rcases hl with rfl | rfl | rfl | rfl | rfl | rfl | rfl | rfl
    · exact unnamed_short (by decide)
    · exact unnamed_short (by decide)
    · exact unnamed_key new.1
    · exact unnamed_short (by decide)
    · exact unnamed_short (by decide)
    · exact unnamed_short (by decide)
    · exact unnamed_short (by decide)
    · exact unnamed_short device
  · intro l hl
    obtain ⟨block, hblock, hl⟩ := List.mem_flatten.mp hl
    obtain ⟨p, hp, rfl⟩ := List.mem_map.mp hblock
    simp only [peerSection, List.mem_cons, List.not_mem_nil, or_false] at hl
    rcases hl with rfl | rfl | rfl | rfl
    · exact unnamed_short (by decide)
    · exact unnamed_short (by decide)
    · exact unnamed_key fun same => new.2 (same ▸ List.mem_map_of_mem hp)
    · exact unnamed_endpoint (hosts p hp)

end Unnamed

/-- The interface is a word of one line. -/
theorem detectDefaultIface_oneLine (line : Option (List Char)) :
    OneLine (detectDefaultIface line) ∧ (detectDefaultIface line).length < 16 := by
  unfold detectDefaultIface
  split
  next => decide
  next found h =>
    obtain ⟨l, -, at_⟩ := Option.bind_eq_some_iff.mp h
    have part : found <:+ cString (l.take 255) := (List.mem_tails _ _).mp (List.mem_of_find?_eq_some at_)
    dsimp only
    split
    next fits =>
      refine ⟨⟨fun there => ?_, fun there => ?_, by omega⟩, fits.2⟩
      · exact absurd (List.mem_takeWhile_imp there) (by decide)
      · have there := (List.takeWhile_prefix _).subset there
        exact not_mem_cString _ (part.subset (List.mem_of_mem_drop there))
    next => decide

section Added
variable {own : Word 32} {iface : List Char} (dev : OneLine iface) (dev_le : iface.length < 16)
include dev dev_le

theorem addPeer_confText {peers : List AddedPeer} {p : AddedPeer} (hosts : ∀ p ∈ peers, HostName p.host)
    (new : p.key ∉ own :: peers.map (·.key)) :
    addPeer (keyText p.key) p.host (confText own iface peers) = confText own iface (peers ++ [p]) := by
  have reads := confText_reads own dev hosts
  have none_ : foundLoop (keyText p.key) (confText own iface peers).length (confText own iface peers) = false := by
    rw [foundLoop_eq _ _ _ (Nat.le_refl _) reads.text reads.short, List.any_eq_false, reads.lines]
    intro l hl
    rw [Bool.not_eq_true]
    exact unnamed_confBlocks dev_le hosts new l hl
  rw [addPeer, if_neg, confText_concat]
  rw [none_]
  exact not_or.mpr ⟨(hexText_keyText p.key).ne_nil, Bool.false_ne_true⟩

/-- Every peer that is added gets a section of its own. -/
theorem addPeers_conf (files : List Char → Option (List Char)) (peers : List AddedPeer) (done : List AddedPeer) {w : Workdir}
    (conf : w.files.conf = some (confText own iface done)) (hosts : ∀ p ∈ done ++ peers, HostName p.host)
    (distinct : (own :: (done ++ peers).map (·.key)).Nodup) :
    (addPeers iface files peers w).files.conf = some (confText own iface (done ++ peers)) ∧
      (addPeers iface files peers w).privateKey = w.privateKey ∧ (addPeers iface files peers w).publicKey = w.publicKey := by
  induction peers generalizing done w with
  | nil => exact ⟨by rw [List.append_nil]; exact conf, rfl, rfl⟩
  | cons p peers ih =>
    have hex := hexText_keyText p.key
    have new : p.key ∉ own :: done.map (·.key) := by
      rw [List.map_append, List.map_cons, ← List.cons_append] at distinct
      exact fun there => List.disjoint_of_nodup_append distinct there List.mem_cons_self
    have added : (cmdPeerAdd iface files p.host (keyText p.key) w).2.files.conf = some (confText own iface (done ++ [p])) := by
      simp only [cmdPeerAdd, hex.peerKeyText_self, conf, Option.getD_some, hex.storedKey_line]
      rw [addPeer_confText dev dev_le (fun q hq => hosts q (List.mem_append_left _ hq)) new]
    have kept : (cmdPeerAdd iface files p.host (keyText p.key) w).2.privateKey = w.privateKey ∧
        (cmdPeerAdd iface files p.host (keyText p.key) w).2.publicKey = w.publicKey := by
      simp only [cmdPeerAdd, hex.peerKeyText_self, and_self]
    rw [List.append_cons] at hosts distinct ⊢
    obtain ⟨conf', private_, public_⟩ := ih (done ++ [p]) added hosts distinct
    exact ⟨conf', private_.trans kept.1, public_.trans kept.2⟩

end Added

/-! ### The configuration of the started program -/

section Loaded
variable (own : Word 32) {iface : List Char} (dev : OneLine iface) {peers : List AddedPeer}
  (hosts : ∀ p ∈ peers, HostName p.host) (few : peers.length ≤ 5)
include dev hosts few

theorem load_confText : (iniconfLoad (confText own iface peers)).sections = confSections own iface peers := by
  have count : (confSections own iface peers).length = peers.length + 2 := by
    rw [confSections, List.length_append, List.length_map, Nat.add_comm]
    rfl
  rw [(confText_reads own dev hosts).load, kept_of_lt]
  · rw [count, iniMaxSections]
    omega
  · rw [count, iniMaxSections]
    omega
  · rw [confSections, List.forall_mem_append, List.forall_mem_cons, List.forall_mem_singleton, List.forall_mem_map]
    exact ⟨⟨Nat.le_of_ble_eq_true rfl, Nat.le_of_ble_eq_true rfl⟩, fun p _ => Nat.le_of_ble_eq_true rfl⟩

theorem moderate_confText (dev_le : iface.length < 16) : Moderate (iniconfLoad (confText own iface peers)).sections := by
  have device : (trim iface).length ≤ 300 := by
    have part := ((List.dropWhile_sublist isSpace).trans (List.rdropWhile_prefix isSpace iface).sublist).length_le
    exact part.trans (by omega)
  have key (k : Word 32) : (keyText k).length ≤ 300 := by
    rw [(hexText_keyText k).length]
    decide
  rw [load_confText own dev hosts few, Moderate, confSections, List.forall_mem_append, List.forall_mem_cons,
    List.forall_mem_singleton, List.forall_mem_map]
  refine ⟨⟨?_, ?_⟩, fun p hp => ?_⟩
  · rw [List.forall_mem_cons, List.forall_mem_cons, List.forall_mem_singleton]
    exact ⟨by decide, key own, by decide⟩
  · rw [List.forall_mem_cons, List.forall_mem_singleton]
    exact ⟨by decide, device⟩
  · rw [AddedPeer.section, List.forall_mem_cons, List.forall_mem_singleton]
    exact ⟨key p.key, (hosts p hp).room⟩

theorem confText_get : iniconfGet (iniconfLoad (confText own iface peers)) "Interface".toList "PrivateKey".toList =
      some "~/.aegis-tunnel/private.key".toList ∧
    iniconfGet (iniconfLoad (confText own iface peers)) "Interface".toList "Port".toList = some "9000".toList := by
  rw [iniconfGet, iniconfGet, load_confText own dev hosts few]
  exact ⟨rfl, rfl⟩

theorem peers_confText : ((iniconfLoad (confText own iface peers)).sections.filter fun s =>
    strcasecmpEq s.name "Peer".toList) = peers.map AddedPeer.section := by
  have only : (peers.map AddedPeer.section).filter (fun s => strcasecmpEq s.name "Peer".toList) =
      peers.map AddedPeer.section := by
    rw [List.filter_eq_self, List.forall_mem_map]
    exact fun p _ => strcasecmpEq_self _
  rw [load_confText own dev hosts few, confSections, List.filter_append, only]
  rfl

theorem peerTexts_confText : peerTexts (confText own iface peers) = peers.map fun p => keyText p.key := by
  refine keyTexts_peerSections ?_
  have key (p : AddedPeer) : getEntry "PublicKey".toList p.section.entries = some (keyText p.key) := if_pos (strcasecmpEq_self _)
  rw [peers_confText own dev hosts few, List.map_map, List.map_map]
  exact List.map_congr_left fun p _ => key p

theorem endpoint_confText : iniconfGetIndexed (iniconfLoad (confText own iface peers)) "Peer".toList (0 : Nat) "Endpoint".toList =
    peers.head?.map (·.host) := by
  rw [iniconfGetIndexed_eq, lookup, if_neg (by decide), peers_confText own dev hosts few]
  cases peers <;> rfl

end Loaded

/-- The port that is added to a host without one. -/
theorem trim_clientEndpoint {host : List Char} (name : HostName host) :
    trim (clientEndpoint (some host)) = clientEndpoint (some host) := by
  have whole : snprintf 320 host = host := List.take_of_length_le (by have := name.room; omega)
  have port : snprintf (320 - host.length) ":9000".toList = ":9000".toList := by
    refine List.take_of_length_le ?_
    have := name.room
    show 5 ≤ _
    omega
  unfold clientEndpoint
  simp only [Option.getD_some, whole, port]
  split
  · exact name.clean.trimmed
  · have trimmed := name.clean.trimmed
    cases host with
    | nil => decide
    | cons c rest =>
      rw [List.cons_append, trim_of_head (trim_head trimmed)]
      have last : (rest ++ ":9000".toList).rdropWhile isSpace = rest ++ ":9000".toList := by
        rw [show ":9000".toList = ":900".toList ++ ['0'] from rfl, ← List.append_assoc]
        exact rdropWhile_append_cons rfl (rest ++ ":900".toList) []
      rw [last]

section Table
variable (icfg : IniConf) (isServer : Bool) (keepalive : Option (List Char))

/-- The entries of the table: every peer of a server has the address 10.0.0.2. -/
def addedEntries (peers : List AddedPeer) : List PeerEntry :=
  peers.map fun p => ⟨p.key, if isServer then 0x0a000002 else 0⟩

theorem createdPeers_entries (peerIdx : Nat) (peers : List AddedPeer) :
    List.Forall₂ (fun s e => s.publicKey.bind hexKey = some e.pub ∧ allowedTunIp s.allowedIps = e.tunIp)
      ((createdPeers icfg isServer keepalive peerIdx (peers.map fun p => keyText p.key)).map (·.peer))
      (addedEntries isServer peers) := by
  induction peers generalizing peerIdx with
  | nil => exact .nil
  | cons p peers ih =>
    refine .cons ⟨?_, ?_⟩ (ih _)
    · have found : getEntry "PublicKey".toList (createdEntries isServer keepalive peerIdx (keyText p.key)
          (iniconfGetIndexed icfg "Peer".toList peerIdx "Endpoint".toList)) = some (keyText p.key) := if_pos (strcasecmpEq_self _)
      exact (congrArg (Option.bind · hexKey) found).trans (hexKey_flatMap p.key)
    · cases isServer with
      | true => rfl
      | false =>
        show allowedTunIp (getEntry "AllowedIPs".toList (createdEntries false keepalive peerIdx (keyText p.key) _)) = 0
        unfold createdEntries
        by_cases first : peerIdx = 0
        · simp only [first]; rfl
        · simp only [if_neg first]; rfl

end Table

/-! ### `start tun` -/

/-- The options of `start tun`. -/
def startTun (isServer : Bool) : Options where
  listenPort := 9000
  remoteStr := none
  privkeyFile := none
  peerkeyFile := none
  mode := if isServer then "server".toList else "client".toList
  tunMode := true
  tunIp := []

theorem mainStart_of_config {host : Host} {o : Options} {text : List Char} (config : host.config = some text)
    (noKey : o.peerkeyFile = none) (checked : checkSettings host (applyConfig host.home o (iniconfLoad text)) = .ok ())
    (peers : (configPeers none (iniconfLoad text)).peerCount ≠ 0) :
    mainStart host o = .ok (configPeers none (iniconfLoad text)) := by
  simp only [mainStart, config, Option.map_some, Option.getD_some, noKey, checked, fallbackKeys, if_neg peers]

section Start
variable (own : KeyPair) {iface : List Char} (dev : OneLine iface) (dev_le : iface.length < 16) {peers : List AddedPeer}
  (some_ : peers ≠ []) (few : peers.length ≤ 5) (hosts : ∀ p ∈ peers, HostName p.host) (isServer : Bool)

/-- The file that `create tun` makes. -/
def createdText (own : Word 32) (iface : List Char) (peers : List AddedPeer) (isServer : Bool) : List Char :=
  (createdConf (iniconfLoad (confText own iface peers)) (keyText own) iface isServer).flatten

include dev dev_le some_ few hosts

theorem load_createdText : ∃ keepalive entries, (iniconfLoad (createdText own.pub iface peers isServer)).sections =
    ⟨"Interface".toList, newInterface (iniconfLoad (confText own.pub iface peers)) (keyText own.pub) isServer⟩ ::
      createdPeers (iniconfLoad (confText own.pub iface peers)) isServer keepalive 0 (peers.map fun p => keyText p.key) ++
      [⟨"Tunnel".toList, entries⟩] := by
  have texts : peerTexts (confText own.pub iface peers) = _ := peerTexts_confText own.pub dev hosts few
  have count : (peerTexts (confText own.pub iface peers)).length ≤ 6 := by
    rw [texts, List.length_map]
    omega
  obtain ⟨entries, load⟩ := load_createdConf isServer (moderate_confText own.pub dev hosts few dev_le) (hexText_keyText own.pub).clean
    dev (by omega) count
  rw [newPeers, texts, if_neg (fun none_ => some_ (List.map_eq_nil_iff.mp none_))] at load
  exact ⟨_, entries, load⟩

theorem table_createdText : (configPeers none (iniconfLoad (createdText own.pub iface peers isServer))).entries =
      addedEntries isServer peers ∧
    (configPeers none (iniconfLoad (createdText own.pub iface peers isServer))).peerCount = peers.length := by
  obtain ⟨keepalive, entries, load⟩ := load_createdText own dev dev_le some_ few hosts isServer
  obtain ⟨rest, none_, same⟩ := peerSections_eq (iniconfLoad (createdText own.pub iface peers isServer))
  rw [load, filter_peers fun s hs => ((createdPeers_sections _ _ _ _ _).2 s hs).1] at same
  have keys := createdPeers_entries (iniconfLoad (confText own.pub iface peers)) isServer keepalive 0 peers
  have count := keys.length_eq.trans (show (addedEntries isServer peers).length = peers.length from List.length_map ..)
  have fit : PeerTable.init.peerCount + peers.length ≤ maxPeers := Nat.le_trans (Nat.add_le_add_left few _) (by decide)
  obtain ⟨all, number⟩ := loadPeers_entries none_ keys (count.symm ▸ fit)
  rw [count] at number
  have table : configPeers none (iniconfLoad (createdText own.pub iface peers isServer)) =
      loadPeers .init 0 (peerSections (iniconfLoad (createdText own.pub iface peers isServer))) := rfl
  rw [table, same]
  exact ⟨all, number.trans (Nat.zero_add _)⟩

/-- The section of the interface in the new file. -/
theorem interface_createdText (key : List Char) :
    iniconfGet (iniconfLoad (createdText own.pub iface peers isServer)) "Interface".toList key = getEntry key
      ([⟨"PrivateKey".toList, "~/.aegis-tunnel/private.key".toList⟩, ⟨"PublicKey".toList, keyText own.pub⟩,
          ⟨"Mode".toList, if isServer then "server".toList else "client".toList⟩] ++
        if isServer then [⟨"Address".toList, "10.0.0.1/24".toList⟩, ⟨"ListenPort".toList, "9000".toList⟩]
        else [⟨"Address".toList, "10.0.0.2/24".toList⟩]) := by
  obtain ⟨keepalive, entries, load⟩ := load_createdText own dev dev_le some_ few hosts isServer
  obtain ⟨private_, port⟩ := confText_get own.pub dev hosts few
  rw [iniconfGet, load, newInterface, if_pos (hexText_keyText own.pub).ne_nil]
  simp only [private_, port, Option.getD_some, Option.map_some, Option.toList_some, List.cons_append, List.nil_append, getLoop,
    strcasecmpEq_self, if_true]

theorem endpoint_createdText :
    iniconfGet (iniconfLoad (createdText own.pub iface peers isServer)) "Peer".toList "Endpoint".toList =
    if isServer then none else peers.head?.map fun p => clientEndpoint (some p.host) := by
  obtain ⟨keepalive, entries, load⟩ := load_createdText own dev dev_le some_ few hosts isServer
  have endpoint := endpoint_confText own.pub dev hosts few
  cases peers with
  | nil => exact absurd rfl some_
  | cons p peers =>
    have interface : strcasecmpEq "Interface".toList "Peer".toList = false := by decide
    rw [iniconfGet, load, List.cons_append, getLoop, if_neg (by rw [interface]; decide), List.map_cons, createdPeers,
      List.cons_append, getLoop, if_pos (strcasecmpEq_self _), endpoint]
    cases isServer with
    | true => rfl
    | false =>
      show some (trim (clientEndpoint (some p.host))) = _
      rw [trim_clientEndpoint (hosts p List.mem_cons_self)]
      rfl

/-- The settings of the started program. -/
theorem settings_createdText (home : List Char) :
    let o := applyConfig home (startTun isServer) (iniconfLoad (createdText own.pub iface peers isServer))
    o.listenPort = 9000 ∧ o.tunMode = true ∧ o.mode = (startTun isServer).mode ∧
      o.privkeyFile = some (home ++ "/.aegis-tunnel/private.key".toList) ∧
      o.remoteStr = if isServer then none else
        (peers.head?.map fun p => clientEndpoint (some p.host)).filter fun v => v ≠ "0.0.0.0:0".toList := by
  have get := interface_createdText own dev dev_le some_ few hosts isServer
  have endpoint := endpoint_createdText own dev dev_le some_ few hosts isServer
  refine ⟨?_, rfl, ?_, ?_, ?_⟩
  · simp only [applyConfig, startTun, iniconfGetInt, get, if_true]
    cases isServer <;> rfl
  · simp only [applyConfig, startTun, get]
    cases isServer <;> rfl
  · simp only [applyConfig, startTun, get]
    cases isServer <;> rfl
  · simp only [applyConfig, startTun, endpoint]
    cases isServer <;> rfl

end Start

/-- The host on which `start tun` runs in the working directory. -/
def Workdir.host (w : Workdir) (isServer : Bool) (home : List Char) (files : List Char → Option Octets)
    (peersDir : List (List Char)) : Host where
  config := if isServer then w.server else w.client
  home := home
  files := fun path => if path = snprintf 768 (keyDir home ++ "/private.key".toList) then w.privateKey else files path
  peersDir := peersDir

theorem cmdCreateTun_eq (iface : List Char) (isServer : Bool) {text : List Char} {w : Workdir} (conf : w.files.conf = some text) :
    (cmdCreateTun iface isServer w).2.privateKey = w.privateKey ∧
      (if isServer then (cmdCreateTun iface isServer w).2.server else (cmdCreateTun iface isServer w).2.client) =
        some (createdConf (iniconfLoad text) (publicHex w.publicKey) iface isServer).flatten := by
  rw [cmdCreateTun, conf]
  cases isServer <;> exact ⟨rfl, rfl⟩

/-- A configuration with a host that can be parsed, or none, passes the checks of a TUN mode. -/
theorem checkSettings_ok {host : Host} {o : Options} (port : o.listenPort = 9000) (tun : o.tunMode = true)
    (mode : o.mode = "server".toList ∨ o.mode = "client".toList)
    (remote : ∀ r, o.remoteStr = some r → (parseHostPort r).isSome) {path : List Char} (file : o.privkeyFile = some path)
    (key : (keyfileLoad (host.files path)).isSome) : checkSettings host o = .ok () := by
  have parsed : (o.remoteStr.any fun r => (parseHostPort r).isNone) = false := by
    cases given : o.remoteStr with
    | none => rfl
    | some r =>
      have parsed := remote r given
      rw [Option.any_some, Option.isNone_eq_false_iff]
      exact parsed
  have known : ¬ (o.mode ≠ "server".toList ∧ o.mode ≠ "client".toList) := fun neither => mode.elim neither.1 neither.2
  rw [checkSettings, if_neg (by rw [port]; decide), if_neg (fun h => h.2.1 tun), if_neg known, parsed, if_neg Bool.false_ne_true,
    file, Option.getD_some, if_neg]
  rw [Option.isNone_iff_eq_none]
  intro none_
  rw [none_] at key
  cases key

theorem keyDir_private {home : List Char} (short : home.length ≤ 700) :
    snprintf 768 (keyDir home ++ "/private.key".toList) = home ++ "/.aegis-tunnel/private.key".toList := by
  have dir : keyDir home = home ++ "/.aegis-tunnel".toList := by
    refine List.take_of_length_le ?_
    rw [List.length_append]
    exact Nat.le_trans (Nat.add_le_add_right short _) (by decide)
  rw [dir, snprintf, List.take_of_length_le]
  · rw [List.append_assoc]
    rfl
  · rw [List.length_append, List.length_append]
    exact Nat.le_trans (Nat.add_le_add_right (Nat.add_le_add_right short _) _) (by decide)

theorem remote_clientEndpoint {host : List Char} (reachable : (endpointHost host).isSome) :
    ((some (clientEndpoint (some host))).filter fun v => v ≠ "0.0.0.0:0".toList).map parseHostPort = some (endpointHost host) := by
  have parsed : endpointHost host = parseHostPort (clientEndpoint (some host)) := rfl
  have proper : clientEndpoint (some host) ≠ "0.0.0.0:0".toList := fun same => by
    rw [parsed, same] at reachable
    exact absurd reachable (by decide)
  have kept : (some (clientEndpoint (some host))).filter (fun v => v ≠ "0.0.0.0:0".toList) = some (clientEndpoint (some host)) :=
    Option.filter_some_pos (decide_eq_true proper)
  rw [kept, parsed]
  rfl

/-- The key pair of `keygen`. -/
def newPair : KeyPair := ⟨Word.zero 32, load 32 [1]⟩

/-- Two peers, one with a port. -/
def newPeerList : List AddedPeer := [⟨"vpn.example:4500".toList, load 32 [2]⟩, ⟨"10.1.2.3".toList, load 32 [3]⟩]

def emptyDir : Workdir := ⟨none, none, ⟨fun _ => none, none⟩, none, none⟩

end AegisTunnel
