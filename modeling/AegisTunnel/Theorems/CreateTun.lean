import AegisTunnel.Theorems.ConfigText
import AegisTunnel.Theorems.StartUp

/-! # The configuration that `create tun` makes

Its sections are those of `aegis.conf` in another order: the interface, the peers, and the tunnel last. The loader
keeps the keys of the peers as long as there are at most six of them; with a seventh the last one would be the
eighth section, whose entries it does not read. -/

namespace AegisTunnel

theorem Clean.getD {o : Option (List Char)} {v : List Char} (found : ∀ x, o = some x → Clean x) (clean : Clean v) :
    Clean (o.getD v) := by
  cases o with
  | none => exact clean
  | some x => exact found x rfl

theorem oneLine_clientEndpoint {ep : Option (List Char)} (found : ∀ x, ep = some x → Clean x) :
    OneLine (clientEndpoint ep) := by
  have whole := Clean.getD found (show Clean "server.com:9000".toList by decide)
  have cut_le : (snprintf 320 (ep.getD "server.com:9000".toList)).length ≤ 319 := List.length_take_le ..
  have cut : OneLine (snprintf 320 (ep.getD "server.com:9000".toList)) :=
    ⟨fun h => whole.line (List.mem_of_mem_take h), fun h => whole.text (List.mem_of_mem_take h), by omega⟩
  unfold clientEndpoint
  dsimp only
  generalize snprintf 320 (ep.getD "server.com:9000".toList) = epBuf at cut cut_le
  split
  · exact cut
  · refine ⟨?_, ?_, ?_⟩
    · rw [List.mem_append, not_or]
      exact ⟨cut.line, fun h => absurd (List.mem_of_mem_take h) (by decide)⟩
    · rw [List.mem_append, not_or]
      exact ⟨cut.text, fun h => absurd (List.mem_of_mem_take h) (by decide)⟩
    · have port_le : (snprintf (320 - epBuf.length) ":9000".toList).length ≤ 5 := List.length_take_le' _ ":9000".toList
      rw [List.length_append]
      omega

section Created
variable (icfg : IniConf) (isServer : Bool) (keepalive : Option (List Char))

/-- The entries of a peer in the new file. -/
def createdEntries (peerIdx : Nat) (pk : List Char) (ep : Option (List Char)) : List IniEntry :=
  ⟨"PublicKey".toList, pk⟩ ::
    if isServer then [⟨"AllowedIPs".toList, "10.0.0.2/32".toList⟩]
    else (if peerIdx = 0 then [⟨"Endpoint".toList, trim (clientEndpoint ep)⟩] else []) ++
      [⟨"AllowedIPs".toList, "0.0.0.0/0".toList⟩, ⟨"PersistentKeepalive".toList, keepalive.getD "25".toList⟩]

/-- The sections of the peers in the new file, for the keys from the index `peerIdx` on. -/
def createdPeers : Nat → List (List Char) → List IniSection
  | _, [] => []
  | peerIdx, pk :: keys =>
    ⟨"Peer".toList, createdEntries isServer keepalive peerIdx pk
        (iniconfGetIndexed icfg "Peer".toList peerIdx "Endpoint".toList)⟩ :: createdPeers (peerIdx + 1) keys

variable {keepalive}

theorem createdPeer_writes (keep : ∀ x, keepalive = some x → Clean x) {peerIdx : Nat} {pk : List Char}
    {ep : Option (List Char)} (key : Clean pk) (endpoint : ∀ x, ep = some x → Clean x ∧ x.length ≤ 300) :
    Writes (createdPeer isServer keepalive peerIdx pk ep) ⟨"Peer".toList, createdEntries isServer keepalive peerIdx pk ep⟩ := by
  have body : Says (createdPeer isServer keepalive peerIdx pk ep).tail (createdEntries isServer keepalive peerIdx pk ep) := by
    refine .cons rfl key ?_
    cases isServer with
    | true =>
      refine .cons rfl (by decide) ?_
      cases ep with
      | none => exact .blank
      | some e =>
        refine (Says.comment ⟨?_, ?_, ?_⟩).append .blank
        · rw [List.mem_append, not_or]
          exact ⟨by decide, (endpoint e rfl).1.line⟩
        · rw [List.mem_append, not_or]
          exact ⟨by decide, (endpoint e rfl).1.text⟩
        · rw [List.length_append]
          exact Nat.le_trans (Nat.add_le_add_left (endpoint e rfl).2 _) (by decide)
    | false =>
      have last : Says [confEntry "AllowedIPs" "0.0.0.0/0".toList,
          confEntry "PersistentKeepalive" (keepalive.getD "25".toList), blankLine]
          [⟨"AllowedIPs".toList, "0.0.0.0/0".toList⟩, ⟨"PersistentKeepalive".toList, keepalive.getD "25".toList⟩] :=
        .cons rfl (by decide) (.cons rfl (.getD keep (by decide)) .blank)
      by_cases first : peerIdx = 0
      · subst first
        exact (Says.entry rfl (oneLine_clientEndpoint fun x hx => (endpoint x hx).1)).append last
      · simp only [if_neg first]
        exact last
  exact body.section (by decide) rfl

/-- There are no more peers than sections. -/
theorem getIndexed_none {cfg : IniConf} {n : Nat} (h : cfg.sections.length ≤ n) (sect key : List Char) :
    iniconfGetIndexed cfg sect n key = none := by
  have few : (cfg.sections.filter fun s => strcasecmpEq s.name sect).length ≤ n := (List.length_filter_le ..).trans h
  rw [iniconfGetIndexed_eq, lookup, if_neg (by omega), Int.toNat_natCast, List.getElem?_eq_none few]
  rfl

/-- The loop writes a section for each key up to the first section without one. -/
theorem createLoop_writes {file : List Char} (mod : Moderate (iniconfLoad file).sections)
    (keep : ∀ x, keepalive = some x → Clean x) (rounds peerIdx more : Nat)
    (enough : (iniconfLoad file).sections.length ≤ peerIdx + rounds) :
    List.Forall₂ Writes (createLoop (iniconfLoad file) isServer keepalive rounds peerIdx)
      (createdPeers (iniconfLoad file) isServer keepalive peerIdx
        (keyTexts ((List.range' peerIdx (rounds + more)).map fun pi : Nat =>
          ⟨iniconfGetIndexed (iniconfLoad file) "Peer".toList pi "PublicKey".toList,
            iniconfGetIndexed (iniconfLoad file) "Peer".toList pi "AllowedIPs".toList⟩))) := by
  induction rounds generalizing peerIdx with
  | zero =>
    cases more with
    | zero => exact .nil
    | succ more =>
      rw [Nat.add_zero] at enough
      rw [Nat.zero_add, List.range'_succ, List.map_cons, keyTexts, getIndexed_none enough]
      exact .nil
  | succ rounds ih =>
    rw [Nat.succ_add, List.range'_succ, List.map_cons, keyTexts, createLoop]
    cases found : iniconfGetIndexed (iniconfLoad file) "Peer".toList peerIdx "PublicKey".toList with
    | none => exact .nil
    | some pk =>
      exact .cons (createdPeer_writes isServer keep (mod.getIndexed found).1 fun x hx => mod.getIndexed hx)
        (ih (peerIdx + 1) (by omega))

/-- The keys of the peers that `main` reads. -/
def peerTexts (file : List Char) : List (List Char) := keyTexts (peerSections (iniconfLoad file))

/-- The text that stands for the keys where there is none. -/
def placeholder : List Char := "<peer-public-key>".toList

/-- The sections of the peers, of which there is one at least. -/
def newPeers (file : List Char) (isServer : Bool) (keepalive : Option (List Char)) : List IniSection :=
  if peerTexts file = [] then
    [⟨"Peer".toList, ⟨"PublicKey".toList, placeholder⟩ ::
      if isServer then [⟨"AllowedIPs".toList, "10.0.0.2/32".toList⟩]
      else [⟨"Endpoint".toList, "server.com:9000".toList⟩, ⟨"AllowedIPs".toList, "0.0.0.0/0".toList⟩,
        ⟨"PersistentKeepalive".toList, keepalive.getD "25".toList⟩]⟩]
  else createdPeers (iniconfLoad file) isServer keepalive 0 (peerTexts file)

theorem newPeers_written (isServer : Bool) {file : List Char} (mod : Moderate (iniconfLoad file).sections)
    (keep : ∀ x, keepalive = some x → Clean x) :
    List.Forall₂ Writes
      (if createLoop (iniconfLoad file) isServer keepalive iniMaxSections 0 = [] then [noPeer isServer keepalive]
        else createLoop (iniconfLoad file) isServer keepalive iniMaxSections 0)
      (newPeers file isServer keepalive) := by
  have loop := createLoop_writes isServer mod keep iniMaxSections 0 8
    (by rw [Nat.zero_add]; exact (iniconfLoad file).count_le)
  rw [show iniMaxSections + 8 = maxPeers from rfl, ← List.range_eq_range'] at loop
  change List.Forall₂ Writes _ (createdPeers _ _ _ 0 (peerTexts file)) at loop
  unfold newPeers
  cases keys : peerTexts file with
  | nil =>
    rw [keys, createdPeers, List.forall₂_nil_right_iff] at loop
    have body : Says (noPeer isServer keepalive).tail (⟨"PublicKey".toList, placeholder⟩ ::
        if isServer then [⟨"AllowedIPs".toList, "10.0.0.2/32".toList⟩]
        else [⟨"Endpoint".toList, "server.com:9000".toList⟩, ⟨"AllowedIPs".toList, "0.0.0.0/0".toList⟩,
          ⟨"PersistentKeepalive".toList, keepalive.getD "25".toList⟩]) := by
      refine .cons rfl (by decide) ?_
      cases isServer with
      | true => exact .cons rfl (by decide) .blank
      | false => exact .cons rfl (by decide) (.cons rfl (by decide) (.cons rfl (.getD keep (by decide)) .blank))
    rw [if_pos loop, if_pos rfl]
    exact .cons (body.section (by decide) rfl) .nil
  | cons pk rest =>
    rw [keys] at loop
    rw [if_neg (fun none_ => by rw [none_] at loop; cases loop), if_neg (List.cons_ne_nil pk rest)]
    exact loop

end Created

def newInterface (icfg : IniConf) (pubkeyHex : List Char) (isServer : Bool) : List IniEntry :=
  let get := fun key : String => iniconfGet icfg "Interface".toList key.toList
  [⟨"PrivateKey".toList, (get "PrivateKey").getD "~/.aegis-tunnel/private.key".toList⟩] ++
    ((if pubkeyHex ≠ [] then some pubkeyHex else get "PublicKey").map (IniEntry.mk "PublicKey".toList)).toList ++
    [⟨"Mode".toList, if isServer then "server".toList else "client".toList⟩] ++
    if isServer then [⟨"Address".toList, "10.0.0.1/24".toList⟩, ⟨"ListenPort".toList, (get "Port").getD "9000".toList⟩]
    else [⟨"Address".toList, "10.0.0.2/24".toList⟩]

def newTunnel (keepalive : Option (List Char)) (natIf : List Char) : List IniEntry :=
  [⟨"Keepalive".toList, keepalive.getD "30".toList⟩, ⟨"NATInterface".toList, trim natIf⟩, ⟨"Timeout".toList, "10".toList⟩,
    ⟨"MaxConnections".toList, "64".toList⟩]

theorem createdTunnel_writes {keepalive : Option (List Char)} {natIf : List Char} (keep : ∀ x, keepalive = some x → Clean x)
    (nat : OneLine natIf) : Writes (createdTunnel keepalive natIf) ⟨"Tunnel".toList, newTunnel keepalive natIf⟩ := by
  have body : Says (createdTunnel keepalive natIf).tail (newTunnel keepalive natIf) :=
    .cons rfl (.getD keep (by decide)) ((Says.entry rfl nat).append (.cons rfl (by decide) (.cons rfl (by decide) .nil)))
  exact body.section (by decide) rfl

section
variable {file : List Char} (mod : Moderate (iniconfLoad file).sections)
include mod

theorem createdInterface_writes {pubkeyHex natIf : List Char} (isServer : Bool) (hex : Clean pubkeyHex) (nat : OneLine natIf)
    (nat_le : natIf.length ≤ 300) :
    Writes (createdInterface (iniconfLoad file) pubkeyHex natIf isServer)
      ⟨"Interface".toList, newInterface (iniconfLoad file) pubkeyHex isServer⟩ := by
  have get {key v : List Char} (h : iniconfGet (iniconfLoad file) "Interface".toList key = some v) : Clean v := (mod.get h).1
  have public_ : Says (if pubkeyHex ≠ [] then [confEntry "PublicKey" pubkeyHex]
      else ((iniconfGet (iniconfLoad file) "Interface".toList "PublicKey".toList).map (confEntry "PublicKey")).toList)
      ((if pubkeyHex ≠ [] then some pubkeyHex else iniconfGet (iniconfLoad file) "Interface".toList "PublicKey".toList).map
        (IniEntry.mk "PublicKey".toList)).toList := by
    split
    · exact .cons rfl hex .nil
    · cases found : iniconfGet (iniconfLoad file) "Interface".toList "PublicKey".toList with
      | none => exact .nil
      | some pk => exact .cons rfl (get found) .nil
  have front := (Says.cons rfl (.getD (fun _ => get) (by decide)) .nil : Says [confEntry "PrivateKey"
    ((iniconfGet (iniconfLoad file) "Interface".toList "PrivateKey".toList).getD "~/.aegis-tunnel/private.key".toList)] _).append
    public_
  have script {before after : List Char} (plain : OneLine before ∧ OneLine after ∧ before.length + after.length ≤ 200) :
      Says [confComment (before ++ natIf ++ after)] [] := by
    refine .comment ⟨?_, ?_, ?_⟩
    · simp only [List.mem_append, not_or]
      exact ⟨⟨plain.1.line, nat.line⟩, plain.2.1.line⟩
    · simp only [List.mem_append, not_or]
      exact ⟨⟨plain.1.text, nat.text⟩, plain.2.1.text⟩
    · have fixed_le := plain.2.2
      simp only [List.length_append]
      omega
  have body : Says (createdInterface (iniconfLoad file) pubkeyHex natIf isServer).tail
      (newInterface (iniconfLoad file) pubkeyHex isServer) := by
    cases isServer with
    | true =>
      refine ((front.append (.cons rfl (by decide) .nil)).append ?_).ended_blank
      refine .cons rfl (by decide) (.cons rfl (.getD (fun _ => get) (by decide)) ?_)
      exact (script (by decide)).append (script (by decide))
    | false => exact ((front.append (.cons rfl (by decide) .nil)).append (.cons rfl (by decide) .nil)).ended_blank
  exact body.section (by decide) rfl

end

/-- What the new file says. -/
def newSections (file pubkeyHex iface : List Char) (isServer : Bool) : List IniSection :=
  let natIf := (iniconfGet (iniconfLoad file) "Tunnel".toList "NATInterface".toList).getD iface
  let keepalive := iniconfGet (iniconfLoad file) "Tunnel".toList "Keepalive".toList
  ⟨"Interface".toList, newInterface (iniconfLoad file) pubkeyHex isServer⟩ :: newPeers file isServer keepalive ++
    [⟨"Tunnel".toList, newTunnel keepalive natIf⟩]

theorem createdConf_reads {file pubkeyHex iface : List Char} (isServer : Bool) (mod : Moderate (iniconfLoad file).sections)
    (hex : Clean pubkeyHex) (dev : OneLine iface) (dev_le : iface.length ≤ 300) :
    ReadsAs (createdConf (iniconfLoad file) pubkeyHex iface isServer).flatten
      (createdConf (iniconfLoad file) pubkeyHex iface isServer) (newSections file pubkeyHex iface isServer) := by
  have keep : ∀ x, iniconfGet (iniconfLoad file) "Tunnel".toList "Keepalive".toList = some x → Clean x :=
    fun _ h => (mod.get h).1
  have top : Says [confComment ("AEGIS-Tunnel TUN ".toList ++ (if isServer then "server".toList else "client".toList) ++
      " config (generated from aegis.conf)".toList), blankLine] [] := by
    refine (Says.comment ?_).append .blank
    cases isServer <;> decide
  unfold createdConf createdSections newSections
  dsimp only
  generalize hnat : (iniconfGet (iniconfLoad file) "Tunnel".toList "NATInterface".toList).getD iface = natIf
  have nat : OneLine natIf ∧ natIf.length ≤ 300 := by
    subst hnat
    cases found : iniconfGet (iniconfLoad file) "Tunnel".toList "NATInterface".toList with
    | none => exact ⟨dev, dev_le⟩
    | some v => exact ⟨(mod.get found).1.toOneLine, (mod.get found).2⟩
  exact readsAs_written (.cons (top.before (createdInterface_writes mod isServer hex nat.1 nat.2))
    (List.rel_append (newPeers_written isServer mod keep) (.cons (createdTunnel_writes keep nat.1) .nil)))

/-! ### What a started program makes of it -/

/-- What `main` reads of a section called `Peer`. -/
def IniSection.peer (s : IniSection) : PeerSection :=
  ⟨getEntry "PublicKey".toList s.entries, getEntry "AllowedIPs".toList s.entries⟩

theorem peerSections_eq (cfg : IniConf) : ∃ rest, keyTexts rest = [] ∧
    peerSections cfg = (cfg.sections.filter fun s => strcasecmpEq s.name "Peer".toList).map (·.peer) ++ rest := by
  generalize only : (cfg.sections.filter fun s => strcasecmpEq s.name "Peer".toList) = secs
  have fit : secs.length ≤ maxPeers := by
    rw [← only]
    exact (List.length_filter_le ..).trans (cfg.count_le.trans (by decide))
  refine ⟨List.replicate (maxPeers - secs.length) ⟨none, none⟩, by cases maxPeers - secs.length <;> rfl, ?_⟩
  have get (i : Nat) (key : List Char) :
      iniconfGetIndexed cfg "Peer".toList i key = secs[i]?.bind fun s => getEntry key s.entries := by
    simp only [iniconfGetIndexed_eq, lookup, getEntry_eq, only, if_neg (Int.not_lt.mpr (Int.natCast_nonneg i)), Int.toNat_natCast]
  refine List.ext_getElem ?_ fun i hi hi' => ?_
  · simp only [peerSections, List.length_map, List.length_range, List.length_append, List.length_replicate]
    omega
  · simp only [peerSections, List.getElem_map, List.getElem_range, get, List.getElem_append, List.length_map,
      List.getElem_replicate]
    split
    next there => rw [List.getElem?_eq_getElem there]; rfl
    next past => rw [List.getElem?_eq_none (Nat.le_of_not_lt past)]; rfl

theorem keyTexts_append {good rest : List PeerSection} {texts : List (List Char)} (keys : good.map (·.publicKey) = texts.map some)
    (none_ : keyTexts rest = []) : keyTexts (good ++ rest) = texts := by
  induction good generalizing texts with
  | nil =>
    rw [List.map_nil, eq_comm, List.map_eq_nil_iff] at keys
    rw [keys]
    exact none_
  | cons sec good ih =>
    cases texts with
    | nil => cases keys
    | cons v texts =>
      rw [List.map_cons, List.map_cons, List.cons.injEq] at keys
      rw [List.cons_append, keyTexts, keys.1]
      exact congrArg (v :: ·) (ih keys.2)

/-- The keys that `main` reads are those of the sections called `Peer`, where all of them have one. -/
theorem keyTexts_peerSections {cfg : IniConf} {texts : List (List Char)}
    (keys : ((cfg.sections.filter fun s => strcasecmpEq s.name "Peer".toList).map fun s =>
      getEntry "PublicKey".toList s.entries) = texts.map some) : keyTexts (peerSections cfg) = texts := by
  obtain ⟨rest, none_, same⟩ := peerSections_eq cfg
  rw [same]
  exact keyTexts_append (List.map_map.trans keys) none_

/-- Two tables with the same keys. -/
def SameKeys (t t' : PeerTable) : Prop := t.asymPeers = t'.asymPeers ∧ t.peerCount = t'.peerCount

theorem SameKeys.loadPeer {t t' : PeerTable} (h : SameKeys t t') (pi : Fin maxPeers) (v : List Char)
    (aip aip' : Option (List Char)) : SameKeys (loadPeer pi v aip t) (loadPeer pi v aip' t') := by
  obtain ⟨peers, count⟩ := h
  unfold AegisTunnel.loadPeer
  rw [peers]
  split
  · dsimp only
    split
    · exact ⟨rfl, rfl⟩
    · exact ⟨rfl, count⟩
  · exact ⟨peers, count⟩

theorem loadPeers_of_nil {secs : List PeerSection} (none_ : keyTexts secs = []) (t : PeerTable) (pi : Nat) :
    loadPeers t pi secs = t := by
  cases secs with
  | nil => rfl
  | cons sec secs =>
    rw [keyTexts] at none_
    rw [loadPeers]
    cases text : sec.publicKey with
    | none => simp only [dite_eq_ite, ite_self]
    | some v => simp [text] at none_

/-- The keys of the table come from the texts up to the first section without one. -/
theorem SameKeys.loadPeers {secs secs' : List PeerSection} (texts : keyTexts secs = keyTexts secs') {t t' : PeerTable}
    (h : SameKeys t t') (pi : Nat) : SameKeys (loadPeers t pi secs) (loadPeers t' pi secs') := by
  induction secs generalizing secs' t t' pi with
  | nil => rw [loadPeers_of_nil texts.symm]; exact h
  | cons sec secs ih =>
    cases text : sec.publicKey with
    | none =>
      have none_ : keyTexts (sec :: secs) = [] := by rw [keyTexts, text]
      rw [loadPeers_of_nil none_, loadPeers_of_nil (texts ▸ none_)]
      exact h
    | some v =>
      cases secs' with
      | nil => simp [keyTexts, text] at texts
      | cons sec' secs' =>
        simp only [keyTexts, text] at texts
        cases text' : sec'.publicKey with
        | none => simp [text'] at texts
        | some v' =>
          simp only [text', List.cons.injEq] at texts
          obtain ⟨rfl, rest⟩ := texts
          rw [AegisTunnel.loadPeers, AegisTunnel.loadPeers]
          simp only [text, text']
          split
          · exact ih rest (h.loadPeer _ v sec.allowedIps sec'.allowedIps) _
          · exact h

/-- The placeholder is no key. -/
theorem loadPeers_placeholder {secs : List PeerSection} (texts : keyTexts secs = [placeholder]) (t : PeerTable) :
    SameKeys (loadPeers t 0 secs) t := by
  cases secs with
  | nil => cases texts
  | cons sec secs =>
    cases text : sec.publicKey with
    | none => simp [keyTexts, text] at texts
    | some v =>
      simp only [keyTexts, text, List.cons.injEq] at texts
      obtain ⟨rfl, rest⟩ := texts
      rw [loadPeers, dif_pos (show 0 < maxPeers by decide)]
      simp only [text]
      rw [loadPeers_of_nil rest]
      exact ⟨rfl, rfl⟩

section Started
variable (icfg : IniConf) (isServer : Bool) (keepalive : Option (List Char))

theorem createdPeers_sections (peerIdx : Nat) (keys : List (List Char)) :
    (createdPeers icfg isServer keepalive peerIdx keys).map (fun s => getEntry "PublicKey".toList s.entries) = keys.map some ∧
      ∀ s ∈ createdPeers icfg isServer keepalive peerIdx keys, s.name = "Peer".toList ∧ s.entries.length ≤ iniMaxKeys := by
  induction keys generalizing peerIdx with
  | nil => exact ⟨rfl, fun _ h => absurd h List.not_mem_nil⟩
  | cons pk keys ih =>
    rw [createdPeers, List.map_cons, List.map_cons, (ih _).1, List.forall_mem_cons]
    refine ⟨congrArg (· :: _) (if_pos (strcasecmpEq_self _)), ⟨rfl, ?_⟩, (ih _).2⟩
    unfold createdEntries
    cases isServer <;> by_cases first : peerIdx = 0 <;> simp [first, iniMaxKeys]

/-- The texts of the keys in the new file. -/
def newTexts (file : List Char) : List (List Char) := if peerTexts file = [] then [placeholder] else peerTexts file

theorem newPeers_sections (file : List Char) :
    (newPeers file isServer keepalive).map (fun s => getEntry "PublicKey".toList s.entries) = (newTexts file).map some ∧
      ∀ s ∈ newPeers file isServer keepalive, s.name = "Peer".toList ∧ s.entries.length ≤ iniMaxKeys := by
  unfold newPeers newTexts
  split
  · refine ⟨rfl, List.forall_mem_singleton.mpr ⟨rfl, ?_⟩⟩
    cases isServer <;> simp [iniMaxKeys]
  · exact createdPeers_sections ..

end Started

theorem newInterface_le (icfg : IniConf) (pubkeyHex : List Char) (isServer : Bool) :
    (newInterface icfg pubkeyHex isServer).length ≤ iniMaxKeys := by
  unfold newInterface
  simp only [List.length_append, List.length_singleton]
  have one : ((if pubkeyHex ≠ [] then some pubkeyHex else iniconfGet icfg "Interface".toList "PublicKey".toList).map
      (IniEntry.mk "PublicKey".toList)).toList.length ≤ 1 := by
    cases (if pubkeyHex ≠ [] then some pubkeyHex else iniconfGet icfg "Interface".toList "PublicKey".toList) <;> simp
  have two : (if isServer then [IniEntry.mk "Address".toList "10.0.0.1/24".toList, ⟨"ListenPort".toList,
      (iniconfGet icfg "Interface".toList "Port".toList).getD "9000".toList⟩]
      else [⟨"Address".toList, "10.0.0.2/24".toList⟩]).length ≤ 2 := by
    cases isServer <;> simp
  simp only [iniMaxKeys]
  omega

/-- The loader finds all sections of the new file, but the entries of the last one only if there are less than eight. -/
theorem load_createdConf {file pubkeyHex iface : List Char} (isServer : Bool) (mod : Moderate (iniconfLoad file).sections)
    (hex : Clean pubkeyHex) (dev : OneLine iface) (dev_le : iface.length ≤ 300) (few : (peerTexts file).length ≤ 6) :
    ∃ entries, (iniconfLoad (createdConf (iniconfLoad file) pubkeyHex iface isServer).flatten).sections =
      ⟨"Interface".toList, newInterface (iniconfLoad file) pubkeyHex isServer⟩ ::
        newPeers file isServer (iniconfGet (iniconfLoad file) "Tunnel".toList "Keepalive".toList) ++
        [⟨"Tunnel".toList, entries⟩] := by
  have reads := createdConf_reads isServer mod hex dev dev_le
  obtain ⟨texts, peers⟩ := newPeers_sections isServer (iniconfGet (iniconfLoad file) "Tunnel".toList "Keepalive".toList) file
  have count := congrArg List.length texts
  rw [List.length_map, List.length_map] at count
  have count_le : (newTexts file).length ≤ 6 := by
    unfold newTexts
    split
    · decide
    · exact few
  unfold newSections at reads
  dsimp only at reads
  generalize (iniconfGet (iniconfLoad file) "Tunnel".toList "NATInterface".toList).getD iface = natIf at reads
  generalize iniconfGet (iniconfLoad file) "Tunnel".toList "Keepalive".toList = keepalive at *
  rw [reads.load]
  rotate_left
  · simp only [List.length_append, List.length_cons, List.length_nil, iniMaxSections]
    omega
  · rw [List.cons_append, List.forall_mem_cons, List.forall_mem_append, List.forall_mem_singleton]
    exact ⟨newInterface_le .., fun s hs => (peers s hs).2, by simp [newTunnel, iniMaxKeys]⟩
  rcases Nat.lt_or_eq_of_le (show (newPeers file isServer keepalive).length ≤ 6 by omega) with fewer | full
  · refine ⟨_, kept_of_lt ?_⟩
    simp only [List.length_append, List.length_cons, List.length_nil, iniMaxSections]
    omega
  · refine ⟨[], ?_⟩
    have last := kept_full (⟨"Interface".toList, newInterface (iniconfLoad file) pubkeyHex isServer⟩ ::
      newPeers file isServer keepalive) ⟨"Tunnel".toList, newTunnel keepalive natIf⟩
    rw [List.length_cons, full] at last
    exact last

theorem filter_peers {peers : List IniSection} (named : ∀ s ∈ peers, s.name = "Peer".toList) (interface tunnel : List IniEntry) :
    (IniSection.mk "Interface".toList interface :: peers ++ [IniSection.mk "Tunnel".toList tunnel]).filter
      (fun s => strcasecmpEq s.name "Peer".toList) = peers := by
  have only : peers.filter (fun s => strcasecmpEq s.name "Peer".toList) = peers := List.filter_eq_self.mpr fun s hs => by
    rw [named s hs]
    exact strcasecmpEq_self _
  have first : strcasecmpEq "Interface".toList "Peer".toList = false := by decide
  have last : strcasecmpEq "Tunnel".toList "Peer".toList = false := by decide
  rw [List.cons_append, List.filter_cons, List.filter_append, only, List.filter_singleton]
  simp only [first, last, Bool.false_eq_true, if_false, cond_false, List.append_nil]

section
variable {file pubkeyHex iface : List Char} (isServer : Bool) (mod : Moderate (iniconfLoad file).sections)
  (hex : Clean pubkeyHex) (dev : OneLine iface) (dev_le : iface.length ≤ 300) (few : (peerTexts file).length ≤ 6)
include mod hex dev dev_le few

theorem peerTexts_createdConf : peerTexts (createdConf (iniconfLoad file) pubkeyHex iface isServer).flatten = newTexts file := by
  obtain ⟨entries, load⟩ := load_createdConf isServer mod hex dev dev_le few
  obtain ⟨texts, peers⟩ := newPeers_sections isServer (iniconfGet (iniconfLoad file) "Tunnel".toList "Keepalive".toList) file
  refine keyTexts_peerSections ?_
  rw [load, filter_peers fun s hs => (peers s hs).1]
  exact texts

theorem get_createdConf (key : List Char) :
    iniconfGet (iniconfLoad (createdConf (iniconfLoad file) pubkeyHex iface isServer).flatten) "Interface".toList key =
      getEntry key (newInterface (iniconfLoad file) pubkeyHex isServer) := by
  obtain ⟨entries, load⟩ := load_createdConf isServer mod hex dev dev_le few
  rw [iniconfGet, load, List.cons_append]
  simp only [getLoop, strcasecmpEq_self, if_true]

end

theorem newInterface_entries (icfg : IniConf) (pubkeyHex : List Char) (isServer : Bool) :
    getEntry "PrivateKey".toList (newInterface icfg pubkeyHex isServer) =
        some ((iniconfGet icfg "Interface".toList "PrivateKey".toList).getD "~/.aegis-tunnel/private.key".toList) ∧
      getEntry "Mode".toList (newInterface icfg pubkeyHex isServer) =
        some (if isServer then "server".toList else "client".toList) ∧
      (getEntry "Address".toList (newInterface icfg pubkeyHex isServer)).isSome = true := by
  unfold newInterface
  dsimp only
  cases (if pubkeyHex ≠ [] then some pubkeyHex else iniconfGet icfg "Interface".toList "PublicKey".toList) <;>
    cases isServer <;> exact ⟨rfl, rfl, rfl⟩

/-- For every `aegis.conf` with at most six peers whose values are of a moderate length: `main` with its default options
finds the same keys in the file that `create tun` makes of it as in `aegis.conf`, in the same entries, and it takes the
settings from it that the file was made for, with the private key of `aegis.conf` where that names one. -/
theorem created_config_starts (file pubkeyHex iface home : List Char) (isServer : Bool) (o : Options)
    (mod : Moderate (iniconfLoad file).sections) (hex : Clean pubkeyHex) (dev : OneLine iface) (dev_le : iface.length ≤ 300)
    (few : (peerTexts file).length ≤ 6) (plain : o.mode = "server".toList ∧ o.tunIp = []) :
    let created := iniconfLoad (createdConf (iniconfLoad file) pubkeyHex iface isServer).flatten
    SameKeys (configPeers none created) (configPeers none (iniconfLoad file)) ∧
      (applyConfig home o created).tunMode = true ∧
      (applyConfig home o created).mode = (if isServer then "server".toList else "client".toList) ∧
      ((iniconfGet (iniconfLoad file) "Interface".toList "PrivateKey".toList).isSome →
        (applyConfig home o created).privkeyFile = (applyConfig home o (iniconfLoad file)).privkeyFile) := by
  intro created
  have texts : keyTexts (peerSections created) = newTexts file := peerTexts_createdConf isServer mod hex dev dev_le few
  have get := get_createdConf isServer mod hex dev dev_le few
  obtain ⟨private_, mode, address⟩ := newInterface_entries (iniconfLoad file) pubkeyHex isServer
  obtain ⟨server, noIp⟩ := plain
  refine ⟨?_, ?_, ?_, fun given => ?_⟩
  · show SameKeys (loadPeers .init 0 (peerSections created)) (loadPeers .init 0 (peerSections (iniconfLoad file)))
    unfold newTexts at texts
    split at texts
    next none_ =>
      rw [loadPeers_of_nil none_]
      exact loadPeers_placeholder texts _
    next => exact SameKeys.loadPeers texts ⟨rfl, rfl⟩ 0
  · simp only [applyConfig, created, get, noIp, address, List.isEmpty_nil, Bool.and_self, Bool.or_true]
  · simp only [applyConfig, created, get, mode, server, Option.any_some]
    cases isServer <;> rfl
  · obtain ⟨v, hv⟩ := Option.isSome_iff_exists.mp given
    simp only [applyConfig, created, get, private_, hv, Option.getD_some]

theorem created_config_starts_twoPeers : Moderate (iniconfLoad twoPeers).sections ∧
    SameKeys (configPeers none (iniconfLoad (createdConf (iniconfLoad twoPeers) bobKey "eth0".toList true).flatten))
      (configPeers none (iniconfLoad twoPeers)) := by
  have mod : Moderate (iniconfLoad twoPeers).sections := by unfold Moderate; decide +kernel
  exact ⟨mod, (created_config_starts twoPeers bobKey "eth0".toList [] true serverOptions mod (by decide) (by decide) (by decide)
    (by decide +kernel) ⟨rfl, rfl⟩).1⟩

end AegisTunnel
