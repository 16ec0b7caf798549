import AegisTunnel.PeerTable
import AegisTunnel.StartUp
import AegisTunnel.Theorems.UdpSessions

/-! Packets of the device and the AllowedIPs lists: what `main` makes of the lists, and to which sessions
    the UDP server then sends a packet. -/

namespace AegisTunnel
open Octets

/-! ### Reading an address -/

theorem isSpace_of_isDigit {c : Char} (h : c.isDigit = true) : isSpace c = false := by
  by_contra hspace
  have hc : isSpace c = true := by simpa using hspace
  simp only [isSpace, List.contains_iff_mem, List.mem_cons, List.not_mem_nil, or_false] at hc
  rcases hc with rfl | rfl | rfl | rfl | rfl | rfl <;> exact absurd h (by decide)

/-- The text does not go on with a digit. -/
def EndsNumber (rest : List Char) : Prop := ∀ c ∈ rest.head?, c.isDigit = false

theorem takeWhile_digits {digits rest : List Char} (hd : ∀ c ∈ digits, c.isDigit = true) (hr : EndsNumber rest) :
    (digits ++ rest).takeWhile Char.isDigit = digits ∧ (digits ++ rest).dropWhile Char.isDigit = rest := by
  have hstop : rest.takeWhile Char.isDigit = [] ∧ rest.dropWhile Char.isDigit = rest := by
    cases rest with
    | nil => exact ⟨rfl, rfl⟩
    | cons c rest =>
      have hc := hr c rfl
      simp [hc]
  rw [List.takeWhile_append_of_pos hd, List.dropWhile_append_of_pos hd, hstop.1, hstop.2, List.append_nil]
  exact ⟨rfl, rfl⟩

theorem scanSign_digit {c : Char} (h : c.isDigit = true) (text : List Char) : scanSign (c :: text) = (false, c :: text) := by
  unfold scanSign
  split
  next heq => cases heq; exact absurd h (by decide)
  next heq => cases heq; exact absurd h (by decide)
  next => rfl

theorem isDigit_of_mem {n : Nat} {c : Char} (h : c ∈ Nat.toDigits 10 n) : c.isDigit = true :=
  Nat.isDigit_of_mem_toDigits (by decide) (by decide) h

/-- A number has no sign. -/
theorem scanSign_toDigits {blanks : List Char} (hb : ∀ c ∈ blanks, isSpace c = true) (n : Nat) (rest : List Char) :
    scanSign ((blanks ++ (Nat.toDigits 10 n ++ rest)).dropWhile isSpace) = (false, Nat.toDigits 10 n ++ rest) := by
  obtain ⟨c, cs, hcs⟩ := List.exists_cons_of_ne_nil (Nat.toDigits_ne_nil (n := n) (b := 10))
  have hc : c.isDigit = true := isDigit_of_mem (n := n) (by rw [hcs]; exact List.mem_cons_self ..)
  rw [List.dropWhile_append_of_pos hb, hcs, List.cons_append, List.dropWhile_cons, isSpace_of_isDigit hc]
  exact scanSign_digit hc _

theorem isEmpty_toDigits (n : Nat) : (Nat.toDigits 10 n).isEmpty = false := by
  rw [List.isEmpty_eq_false_iff]
  exact Nat.toDigits_ne_nil

/-- `%u` reads the decimal digits of a number, after any blanks. -/
theorem scanUnsigned_toDigits {blanks rest : List Char} {n : Nat} (hb : ∀ c ∈ blanks, isSpace c = true)
    (hn : n < 2 ^ 32) (hr : EndsNumber rest) :
    scanUnsigned (blanks ++ (Nat.toDigits 10 n ++ rest)) = some (UInt32.ofNat n, rest) := by
  obtain ⟨htake, hdrop⟩ := takeWhile_digits (fun c hc => isDigit_of_mem (n := n) hc) hr
  have hvalue : Nat.ofDigitChars 10 (Nat.toDigits 10 n) 0 = n := Nat.ofDigitChars_toDigits (by decide) (by decide)
  have hsmall : ¬ n ≥ 2 ^ 64 := by omega
  unfold scanUnsigned
  dsimp only
  rw [scanSign_toDigits hb]
  dsimp only
  rw [htake, hdrop, isEmpty_toDigits, hvalue, if_neg hsmall]
  rfl

theorem endsNumber_nil : EndsNumber [] := by
  intro c hc
  cases hc

theorem endsNumber_dot (rest : List Char) : EndsNumber ('.' :: rest) := by
  rintro c ⟨rfl⟩
  decide

/-- `%u` reads an octet of an address. -/
theorem scanUnsigned_octet (ip i : UInt32) {rest : List Char} (hr : EndsNumber rest) :
    scanUnsigned (Nat.toDigits 10 ((ip >>> i) &&& 0xff).toNat ++ rest) = some ((ip >>> i) &&& 0xff, rest) := by
  have h := scanUnsigned_toDigits (List.forall_mem_nil fun c => isSpace c = true) (UInt32.toNat_lt ((ip >>> i) &&& 0xff)) hr
  rwa [List.nil_append, UInt32.ofNat_toNat] at h

theorem inetNtop_eq (ip : UInt32) :
    inetNtop ip = Nat.toDigits 10 ((ip >>> 24) &&& 0xff).toNat ++ '.' :: (Nat.toDigits 10 ((ip >>> 16) &&& 0xff).toNat ++
      '.' :: (Nat.toDigits 10 ((ip >>> 8) &&& 0xff).toNat ++ '.' :: Nat.toDigits 10 ((ip >>> 0) &&& 0xff).toNat)) := by
  simp [inetNtop, List.intercalate]

/-- The format reads back an address in the notation of `inet_ntop`. -/
theorem scanAddress_inetNtop {blanks rest : List Char} (ip : UInt32) (hb : ∀ c ∈ blanks, isSpace c = true)
    (hr : EndsNumber rest) : scanAddress (blanks ++ (inetNtop ip ++ rest)) = some ip := by
  have first := scanUnsigned_toDigits hb (UInt32.toNat_lt ((ip >>> 24) &&& 0xff))
    (endsNumber_dot (Nat.toDigits 10 ((ip >>> 16) &&& 0xff).toNat ++ '.' :: (Nat.toDigits 10 ((ip >>> 8) &&& 0xff).toNat ++
      '.' :: (Nat.toDigits 10 ((ip >>> 0) &&& 0xff).toNat ++ rest))))
  rw [UInt32.ofNat_toNat] at first
  unfold scanAddress
  simp only [inetNtop_eq, List.append_assoc, List.cons_append, first, scanUnsigned_octet ip _ (endsNumber_dot _),
    scanUnsigned_octet ip 0 hr, scanChar, if_true, Option.bind_eq_bind, Option.bind_some]
  rw [or_octets_eq]

/-! ### Addresses as texts -/

theorem inetNtop_injective : Function.Injective inetNtop := by
  intro x y same
  have scan : ∀ ip, scanAddress (inetNtop ip) = some ip := fun ip => by
    have h := scanAddress_inetNtop ip (List.forall_mem_nil fun c => isSpace c = true) endsNumber_nil
    rwa [List.nil_append, List.append_nil] at h
  exact Option.some.inj ((scan x).symm.trans ((congrArg scanAddress same).trans (scan y)))

/-- The text is not empty and fits into an entry of the table. -/
theorem inetNtop_fits (ip : UInt32) : inetNtop ip ≠ [] ∧ (inetNtop ip).take (inetAddrstrlen - 1) = inetNtop ip := by
  have digits : ∀ i : UInt32, (Nat.toDigits 10 ((ip >>> i) &&& 0xff).toNat).length ≤ 3 := fun i => by
    refine Nat.toDigits_length 10 _ 3 (by decide) ?_
    rw [UInt32.toNat_and]
    exact lt_of_le_of_lt Nat.and_le_right (by decide)
  have h24 := digits 24
  have h16 := digits 16
  have h8 := digits 8
  have h0 := digits 0
  rw [inetNtop_eq]
  refine ⟨List.append_ne_nil_of_right_ne_nil _ (List.cons_ne_nil _ _), List.take_of_length_le ?_⟩
  simp only [List.length_append, List.length_cons, inetAddrstrlen]
  omega

/-! ### AllowedIPs lists -/

/-- A network in CIDR notation. -/
structure Cidr where
  addr : UInt32
  bits : Nat
  le : bits ≤ 32

instance : Membership UInt32 Cidr where
  mem net ip := ip.toNat / 2 ^ (32 - net.bits) = net.addr.toNat / 2 ^ (32 - net.bits)

def Cidr.text (net : Cidr) : List Char := inetNtop net.addr ++ '/' :: Nat.toDigits 10 net.bits

/-- A text that lists networks, separated by commas and any blanks. -/
inductive CidrList : List Char → List Cidr → Prop where
  | last (pre post : List Char) (net : Cidr) (hpre : ∀ c ∈ pre, isSpace c = true) (hpost : ∀ c ∈ post, isSpace c = true) :
      CidrList (pre ++ (net.text ++ post)) [net]
  | cons (pre post : List Char) (net : Cidr) (rest : List Char) (nets : List Cidr) (hpre : ∀ c ∈ pre, isSpace c = true)
      (hpost : ∀ c ∈ post, isSpace c = true) (more : CidrList rest nets) :
      CidrList (pre ++ (net.text ++ (post ++ ',' :: rest))) (net :: nets)

/-- The address of the first network, or 0. -/
def firstAddr (nets : List Cidr) : UInt32 := (nets.head?.map (·.addr)).getD 0

/-- The networks that a section allows. -/
inductive PeerSection.Allows : PeerSection → List Cidr → Prop where
  | all {key : Option (List Char)} : Allows ⟨key, none⟩ []
  | listed {key : Option (List Char)} {text : List Char} {nets : List Cidr} (h : CidrList text nets) :
      Allows ⟨key, some text⟩ nets

/-- Of a list only the address of its first network is kept. -/
theorem allowedTunIp_eq {sec : PeerSection} {nets : List Cidr} (h : sec.Allows nets) :
    allowedTunIp sec.allowedIps = firstAddr nets := by
  have first : ∀ (pre rest : List Char) (net : Cidr), (∀ c ∈ pre, isSpace c = true) →
      allowedTunIp (some (pre ++ (net.text ++ rest))) = net.addr := by
    intro pre rest net hpre
    have hslash : EndsNumber ('/' :: (Nat.toDigits 10 net.bits ++ rest)) := by
      rintro c ⟨rfl⟩
      decide
    have h := scanAddress_inetNtop net.addr hpre hslash
    rw [allowedTunIp, Cidr.text, List.append_assoc, List.cons_append, Option.bind_some, h]
    rfl
  cases h with
  | all => rfl
  | listed h =>
    cases h with
    | last pre post net hpre => exact first pre post net hpre
    | cons pre post net rest nets hpre => exact first pre _ net hpre

/-! ### The table of the peers -/

/-- The section has a public key that `main` accepts. -/
def PeerSection.HasKey (sec : PeerSection) : Prop :=
  ∃ v, sec.publicKey = some v ∧ v.length = 64 ∧ (parseHex 32 v).1 = some 32

section Loading
variable {pi : Fin maxPeers} {v : List Char} {aip : Option (List Char)} {t : PeerTable}

theorem loadPeer_tunIps_self (hlen : v.length = 64) (hkey : (parseHex 32 v).1 = some 32) :
    (loadPeer pi v aip t).tunIps.get pi = allowedTunIp aip := by
  simp only [loadPeer, hlen, hkey, if_true]
  exact List.Vector.get_set_same ..

theorem loadPeer_tunIps_of_ne {j : Fin maxPeers} (h : pi ≠ j) : (loadPeer pi v aip t).tunIps.get j = t.tunIps.get j := by
  unfold loadPeer
  dsimp only
  split
  · split
    · exact List.Vector.get_set_of_ne h _
    · rfl
  · rfl

theorem loadPeer_peerCount_le (h : t.peerCount ≤ pi) : (loadPeer pi v aip t).peerCount ≤ pi + 1 := by
  unfold loadPeer
  dsimp only
  split
  · split
    · exact le_refl _
    · exact Nat.le_succ_of_le h
  · exact Nat.le_succ_of_le h

end Loading

/-- The loop leaves the entries before it, and those it counts have the addresses of their sections. -/
theorem loadPeers_tunIps (secs : List PeerSection) (t : PeerTable) (pi : Nat) (hcount : t.peerCount ≤ pi)
    (keys : ∀ sec ∈ secs, sec.HasKey) (j : Fin maxPeers) :
    (j < pi → (loadPeers t pi secs).tunIps.get j = t.tunIps.get j) ∧
      (pi ≤ j → j < (loadPeers t pi secs).peerCount →
        ∃ sec, secs[j.val - pi]? = some sec ∧ (loadPeers t pi secs).tunIps.get j = allowedTunIp sec.allowedIps) := by
  induction secs generalizing t pi with
  | nil => exact ⟨fun _ => rfl, fun hle hlt => absurd hlt (by simp only [loadPeers]; omega)⟩
  | cons sec secs ih =>
    obtain ⟨v, hv, hlen, hkey⟩ := keys sec (List.mem_cons_self ..)
    unfold loadPeers
    split
    next hpi =>
      simp only [hv]
      obtain ⟨before, counted⟩ := ih (loadPeer ⟨pi, hpi⟩ v sec.allowedIps t) (pi + 1) (loadPeer_peerCount_le hcount)
        fun s hs => keys s (List.mem_cons_of_mem _ hs)
      refine ⟨fun hj => ?_, fun hle hlt => ?_⟩
      · rw [before (by omega), loadPeer_tunIps_of_ne (by rintro rfl; exact absurd hj (lt_irrefl _))]
      · rcases Nat.eq_or_lt_of_le hle with rfl | hlt'
        · exact ⟨sec, by simp, by rw [before (by omega)]; exact loadPeer_tunIps_self hlen hkey⟩
        · obtain ⟨sec', hsec', haddr⟩ := counted hlt' hlt
          refine ⟨sec', ?_, haddr⟩
          have hidx : j.val - pi = (j.val - (pi + 1)) + 1 := by omega
          rw [hidx, List.getElem?_cons_succ, hsec']
    next => exact ⟨fun _ => rfl, fun hle hlt => absurd hlt (by omega)⟩

theorem getElem?_entries {t : PeerTable} {i : Nat} {e : PeerEntry} (h : t.entries[i]? = some e) :
    ∃ hi : i < maxPeers, i < t.peerCount ∧ e.tunIp = t.tunIps.get ⟨i, hi⟩ := by
  rw [PeerTable.entries, List.getElem?_map, Option.map_eq_some_iff] at h
  obtain ⟨pi, hpi, rfl⟩ := h
  rw [List.getElem?_take] at hpi
  split at hpi
  next hlt =>
    obtain ⟨hi, rfl⟩ := List.getElem?_eq_some_iff.mp hpi
    rw [List.length_finRange] at hi
    exact ⟨hi, hlt, by simp⟩
  next => cases hpi

/-- The peers of the configuration and their networks. -/
structure Configured (secs : List PeerSection) (nets : List (List Cidr)) (cfg : UdpConfig) : Prop where
  table : cfg.peers = (loadPeers .init 0 secs).entries
  keys : ∀ sec ∈ secs, sec.HasKey
  allows : List.Forall₂ PeerSection.Allows secs nets
  disjoint : nets.Pairwise fun l l' => ∀ net ∈ l, ∀ net' ∈ l', ∀ ip : UInt32, ip ∈ net → ip ∉ net'

/-- The networks of a peer. -/
def netsOf (nets : List (List Cidr)) (peer : Nat) : List Cidr := nets.getD peer []

theorem forall₂_getElem? {α β : Type} {R : α → β → Prop} {l : List α} {l' : List β} (h : List.Forall₂ R l l') {i : Nat} {a : α}
    (ha : l[i]? = some a) : ∃ c, l'[i]? = some c ∧ R a c := by
  obtain ⟨hi, rfl⟩ := List.getElem?_eq_some_iff.mp ha
  have hi' : i < l'.length := h.length_eq ▸ hi
  exact ⟨_, List.getElem?_eq_getElem hi', h.get hi hi'⟩

/-- The tunnel address of a peer is the first address of its list. -/
theorem Configured.tunIpOf {secs : List PeerSection} {nets : List (List Cidr)} {cfg : UdpConfig}
    (config : Configured secs nets cfg) {peer : Nat} (h : peer < cfg.peers.length) :
    cfg.tunIpOf peer = firstAddr (netsOf nets peer) := by
  obtain ⟨entry, hentry⟩ : ∃ entry, cfg.peers[peer]? = some entry := ⟨_, List.getElem?_eq_getElem h⟩
  obtain ⟨hmax, hcount, haddr⟩ := getElem?_entries (config.table ▸ hentry)
  obtain ⟨sec, hsec, htun⟩ := (loadPeers_tunIps secs .init 0 (le_refl 0) config.keys ⟨peer, hmax⟩).2 (Nat.zero_le _) hcount
  obtain ⟨l, hl, hallows⟩ := forall₂_getElem? config.allows hsec
  have hl : nets.getD peer [] = l := by
    rw [List.getD_eq_getElem?_getD]
    exact congrArg (·.getD []) hl
  calc cfg.tunIpOf peer = entry.tunIp := by rw [UdpConfig.tunIpOf, hentry]; rfl
    _ = allowedTunIp sec.allowedIps := haddr.trans htun
    _ = firstAddr (netsOf nets peer) := by rw [allowedTunIp_eq hallows, netsOf, hl]

/-! ### Packets -/

/-- A well-formed IPv4 packet to `dst`. -/
structure Ipv4 (pkt : Octets) (dst : UInt32) : Prop where
  version : (pkt.getD 0 0) >>> 4 = 4
  header : 20 ≤ ((pkt.getD 0 0) &&& 0x0f).toNat * 4
  whole : ((pkt.getD 0 0) &&& 0x0f).toNat * 4 ≤ pkt.length
  size : pkt.length = (pkt.getD 2 0).toNat * 256 + (pkt.getD 3 0).toNat
  dst : dst.toNat = (pkt.getD 16 0).toNat * 2 ^ 24 + (pkt.getD 17 0).toNat * 2 ^ 16 + (pkt.getD 18 0).toNat * 2 ^ 8 +
    (pkt.getD 19 0).toNat

theorem Ipv4.length_le {pkt : Octets} {dst : UInt32} (h : Ipv4 pkt dst) : pkt.length ≤ frameMaxPayload := by
  have h2 := (pkt.getD 2 0).toNat_lt
  have h3 := (pkt.getD 3 0).toNat_lt
  rw [h.size]
  show _ ≤ 65535
  omega

theorem Ipv4.isEmpty_eq {pkt : Octets} {dst : UInt32} (h : Ipv4 pkt dst) : pkt.isEmpty = false := by
  have hlen := h.header.trans h.whole
  cases pkt with
  | nil => exact absurd hlen (by decide)
  | cons _ _ => rfl

theorem take_four_drop {pkt : Octets} (h : 20 ≤ pkt.length) :
    (pkt.drop 16).take 4 = [pkt.getD 16 0, pkt.getD 17 0, pkt.getD 18 0, pkt.getD 19 0] := by
  apply List.ext_getElem?
  intro i
  rcases i with _ | _ | _ | _ | i <;> simp <;> grind

theorem ipDstAddr_eq {pkt : Octets} {dst : UInt32} (h : Ipv4 pkt dst) : ipDstAddr pkt = dst := by
  have hlen : 20 ≤ pkt.length := h.header.trans h.whole
  have hihl : ¬ (((pkt.getD 0 0) &&& 0x0f).toNat * 4 < 20 ∨ ((pkt.getD 0 0) &&& 0x0f).toNat * 4 > pkt.length) := by
    have := h.header
    have := h.whole
    omega
  rw [ipDstAddr, if_neg (by omega), if_neg (not_not.mpr h.version), if_neg hihl, take_four_drop hlen]
  apply UInt32.toNat_inj.mp
  have h16 := (pkt.getD 16 0).toNat_lt
  have h17 := (pkt.getD 17 0).toNat_lt
  have h18 := (pkt.getD 18 0).toNat_lt
  have h19 := (pkt.getD 19 0).toNat_lt
  have h0 : (0 : UInt32).toNat = 0 := rfl
  have e0 := toNat_shl_or_octet (x := 0) (pkt.getD 16 0) (by decide)
  have e1 := toNat_shl_or_octet (pkt.getD 17 0) (x := ((0 : UInt32) <<< 8) ||| (pkt.getD 16 0).toUInt32) (by omega)
  have e2 := toNat_shl_or_octet (pkt.getD 18 0) (x := _) (by rw [e1, e0]; omega)
  have e3 := toNat_shl_or_octet (pkt.getD 19 0) (x := _) (by rw [e2, e1, e0]; omega)
  simp only [List.foldl_cons, List.foldl_nil]
  rw [e3, e2, e1, e0, h.dst]
  omega

theorem mem_sendEach {b : Backend} {type : UInt8} {d : Octets} {draws : Nat → Option (Word 8)} {skip : UdpSession → Bool}
    {sessions : List UdpSession} {m : Sending} :
    m ∈ sendEach b type d draws skip sessions ↔ ∃ si x wire, sessions[si]? = some x ∧ skip x = false ∧
      frameBuildExplicit b type 0 d (draws si) x.encKey = some wire ∧ m = ⟨some si, x.addr, wire⟩ := by
  rw [sendEach, List.mem_filterMap]
  constructor
  · rintro ⟨⟨x, si⟩, hmem, h⟩
    have hx := List.mem_zipIdx_iff_getElem?.mp hmem
    dsimp only at h hx
    split at h
    next => cases h
    next hskip =>
      obtain ⟨wire, hwire, rfl⟩ := Option.map_eq_some_iff.mp h
      exact ⟨si, x, wire, hx, by simpa using hskip, hwire, rfl⟩
  · rintro ⟨si, x, wire, hx, hskip, hwire, rfl⟩
    refine ⟨(x, si), List.mem_zipIdx_iff_getElem?.mpr hx, ?_⟩
    simp only [hskip, hwire, Bool.false_eq_true, if_false, Option.map_some]

namespace UdpServer
variable {lib : OpenSsl} {b : Backend} {cfg : UdpConfig} {s t : UdpServer} {e : UdpEvent}

/-! ### The peers of the handshakes -/

theorem returns_udpAnswer (asymPriv peer : Word 32) (d : Octets) (pi : Nat) :
    Run.Returns (·.peer = pi) (udpAnswer lib b asymPriv d pi peer) := by
  unfold udpAnswer
  refine Run.returns_bind fun ee => Run.returns_bind fun es => ?_
  split
  · exact Run.returns_fail
  · exact Run.returns_bind fun _ => Run.returns_bind fun _ => Run.returns_bind fun _ => Run.returns_bind fun _ =>
      Run.returns_bind fun _ => Run.returns_pure rfl

theorem returns_udpTryPeers (asymPriv : Word 32) (d : Octets) (peers : List (Word 32)) (pi n : Nat)
    (h : pi + peers.length ≤ n) : Run.Returns (·.peer < n) (udpTryPeers lib b asymPriv d pi peers) := by
  induction peers generalizing pi with
  | nil => exact Run.returns_fail
  | cons p peers ih =>
    rw [List.length_cons] at h
    refine Run.returns_orElse (fun w offer ho => ?_) (ih (pi + 1) (by omega))
    rw [returns_udpAnswer asymPriv p d pi w offer ho]
    omega

/-- The handshakes are by peers of the table. -/
structure PeersKnown (cfg : UdpConfig) (s : UdpServer) : Prop where
  waiting : ∀ offer tunIn, s.pc = .confirm offer tunIn → offer.peer < cfg.peers.length
  installed : ∀ p ∈ s.installs, p.2.peer < cfg.peers.length

theorem DatagramEffect.waiting {tunIn tunIn' : Bool} {d : Octets} {sender : SockAddr} {now : Int64} {writes : List Sent}
    {offer : UdpOffer} (h : DatagramEffect lib b cfg s tunIn d sender now writes t) (place : s.pc = .udp tunIn)
    (hpc : t.pc = .confirm offer tunIn') :
    ∃ buf w, (udpTryPeers lib b cfg.asymPriv buf 0 (cfg.peers.map (·.pub)) w).1 = some offer := by
  rcases h with ⟨rate, -, rfl⟩ | ⟨rate, offer', host, -, tried, rfl⟩ | ⟨-, -, rfl⟩ | ⟨si, x, -, -, -, -, -, rfl⟩ |
    ⟨si, x, f, -, -, -, -, -, rfl⟩
  · cases place.symm.trans hpc
  · cases hpc
    exact ⟨_, host, tried⟩
  · cases place.symm.trans hpc
  · cases place.symm.trans hpc
  · cases place.symm.trans hpc

theorem step_peersKnown (inv : PeersKnown cfg s) (h : step lib b cfg s e = some t) : PeersKnown cfg t := by
  refine ⟨fun offer tunIn hpc => ?_, fun p hp => ?_⟩
  · obtain ⟨pc, idle, -, rfl⟩ | ⟨-, rfl⟩ | ⟨tunIn', d, sender, now, host, writes, place, -, rfl⟩ |
      ⟨offer', tunIn', d, sender, now, -, -, rfl⟩ | ⟨pkt, draws, place, -, rfl⟩ | ⟨now, draws, -, -, rfl⟩ := step_effect h
    · exact inv.waiting offer tunIn ((idle offer tunIn hpc).trans hpc)
    · cases hpc
    · obtain ⟨buf, w, htry⟩ := (onDatagram_effect ..).waiting place hpc
      exact returns_udpTryPeers cfg.asymPriv buf _ 0 _ (by simp) w offer htry
    · cases hc : udpConfirmed b offer'.keys.decKey d with
      | true => rw [onConfirm_of_confirmed hc] at hpc; cases hpc
      | false => rw [onConfirm_of_not hc] at hpc; cases hpc
    · cases place.symm.trans hpc
    · cases hpc
  · cases (step_table h).1 with
    | same sessions installs => exact inv.installed p (installs ▸ hp)
    | touched _ _ _ _ _ _ sessions installs => exact inv.installed p (installs ▸ hp)
    | cleaned _ sessions installs => exact inv.installed p (installs ▸ hp)
    | left sessions installs => exact inv.installed p (installs ▸ hp)
    | installed offer tunIn d sender now waiting event confirmed received sessions installs =>
      rw [installs, List.mem_append, Option.mem_toList, Option.map_eq_some_iff] at hp
      rcases hp with ⟨si, -, rfl⟩ | hp
      · exact inv.waiting offer tunIn waiting
      · exact inv.installed p hp

theorem Reachable.peersKnown (run : Reachable lib b cfg s) : PeersKnown cfg s :=
  run.invariant ⟨fun _ _ h => UdpPc.noConfusion h, List.forall_mem_nil _⟩ fun inv h _ => step_peersKnown inv h

theorem PeersKnown.owner (h : PeersKnown cfg s) {si : Nat} {o : UdpOffer} (ho : s.owner si = some o) :
    o.peer < cfg.peers.length := by
  obtain ⟨p, hp, rfl⟩ := Option.map_eq_some_iff.mp ho
  exact h.installed p (List.mem_of_find?_eq_some hp)

/-! ### Routing -/

/-- The step hands a frame with the packet, for the session of the slot, to `sendto`. -/
def SendsTo (b : Backend) (s t : UdpServer) (pkt : Octets) (si : Nat) : Prop :=
  ∃ x r wire, s.sessions[si]? = some x ∧ frameBuildExplicit b frameData 0 pkt (some r) x.encKey = some wire ∧
    ⟨some si, x.addr, wire⟩ ∈ t.sent.drop s.sent.length

/-- The address is in a network of the peer. -/
def Allowed (nets : List (List Cidr)) (peer : Nat) (dst : UInt32) : Prop := ∃ net ∈ netsOf nets peer, dst ∈ net

/-- A live session is sent the packet exactly if the packet is to a network of the peer who owns it. -/
def RoutedByOwner (b : Backend) (nets : List (List Cidr)) (s t : UdpServer) (pkt : Octets) (dst : UInt32) : Prop :=
  ∀ si x, s.sessions[si]? = some x → x.active = true →
    ∃ o, s.owner si = some o ∧ (SendsTo b s t pkt si ↔ Allowed nets o.peer dst)

/-- What decides whether a live session is sent a packet: the one address stored in it. -/
def Passes (x : UdpSession) (dst : UInt32) : Prop := dst = 0 ∨ x.tunIp = 0 ∨ dst = x.tunIp

theorem skips_iff {x : UdpSession} {dst : UInt32} (live : x.active = true) : x.skips dst = false ↔ Passes x dst := by
  simp only [UdpSession.skips, live, Passes]
  by_cases h0 : dst = 0 <;> by_cases ht : x.tunIp = 0 <;> by_cases he : dst = x.tunIp <;> simp_all

theorem sendsTo_iff {pkt : Octets} {dst : UInt32} {draws : Nat → Option (Word 8)} (wf : Ipv4 pkt dst)
    (h : step lib b cfg s (.read true (.packet pkt) draws) = some t) {si : Nat} {x : UdpSession}
    (hx : s.sessions[si]? = some x) (live : x.active = true) : SendsTo b s t pkt si ↔ Passes x dst ∧ draws si ≠ none := by
  have hwhole : pkt.take frameMaxPayload = pkt := List.take_of_length_le wf.length_le
  have hsent : t.sent = s.sent ++ sendEach b frameData pkt draws (·.skips dst) s.sessions := by
    simp only [step] at h
    split at h
    next =>
      simp only [wf.isEmpty_eq, Bool.not_true, Bool.false_eq_true, if_false, Option.some.injEq] at h
      rw [← h, onPacket]
      dsimp only
      rw [hwhole, ipDstAddr_eq wf]
    next => cases h
  simp only [SendsTo, hsent, List.drop_left, mem_sendEach]
  constructor
  · rintro ⟨x', r, wire, hx', -, si', y, wire', hy, hskip, hwire, heq⟩
    cases (Sending.mk.inj heq).1
    cases hx.symm.trans hy
    refine ⟨(skips_iff live).mp hskip, fun hnone => ?_⟩
    rw [hnone, frameBuildExplicit] at hwire
    split at hwire <;> cases hwire
  · rintro ⟨hpass, hdraw⟩
    obtain ⟨r, hr⟩ := Option.ne_none_iff_exists'.mp hdraw
    obtain ⟨wire, hwire⟩ : ∃ wire, frameBuildExplicit b frameData 0 pkt (some r) x.encKey = some wire :=
      ⟨_, frameBuildExplicit_of_le wf.length_le⟩
    exact ⟨x, r, _, hx, hwire, si, x, _, hx, (skips_iff live).mpr hpass, by rw [hr]; exact hwire, rfl⟩

theorem Allowed.getElem? {nets : List (List Cidr)} {p : Nat} {dst : UInt32} (h : Allowed nets p dst) :
    ∃ hp : p < nets.length, ∃ net ∈ nets[p], dst ∈ net := by
  obtain ⟨net, hnet, hdst⟩ := h
  rw [netsOf, List.getD_eq_getElem?_getD] at hnet
  cases hl : nets[p]? with
  | none => rw [hl] at hnet; cases hnet
  | some l =>
    rw [hl] at hnet
    obtain ⟨hp, rfl⟩ := List.getElem?_eq_some_iff.mp hl
    exact ⟨hp, net, hnet, hdst⟩

theorem allowed_unique {secs : List PeerSection} {nets : List (List Cidr)} (config : Configured secs nets cfg)
    {p q : Nat} {dst : UInt32} (hp : Allowed nets p dst) (hq : Allowed nets q dst) : p = q := by
  obtain ⟨hp, net, hnet, hin⟩ := hp.getElem?
  obtain ⟨hq, net', hnet', hin'⟩ := hq.getElem?
  have apart := List.pairwise_iff_getElem.mp config.disjoint
  rcases lt_trichotomy p q with hlt | heq | hlt
  · exact absurd hin' (apart p q hp hq hlt net hnet net' hnet' dst hin)
  · exact heq
  · exact absurd hin (apart q p hq hp hlt net' hnet' net hnet dst hin')

/-- Routing. A packet goes to the sessions that it should go to exactly if, for each of them, the networks
    of the owner have the destination just when the one address in the session lets it pass and there is
    a nonce. In a run in which addresses in use are reused by peers with the same tunnel address, that
    address is the first of the owner's list, so that with nonces for all sessions it depends on the lists alone.
    Packets that are routed so are for one peer only. -/
theorem routing_iff (lib : OpenSsl) (b : Backend) (cfg : UdpConfig) (secs : List PeerSection) (nets : List (List Cidr))
    (s t : UdpServer) (pkt : Octets) (dst : UInt32) (draws : Nat → Option (Word 8)) (config : Configured secs nets cfg)
    (run : Reachable lib b cfg s) (wf : Ipv4 pkt dst) (h : step lib b cfg s (.read true (.packet pkt) draws) = some t) :
    (RoutedByOwner b nets s t pkt dst ↔ ∀ si x o, s.sessions[si]? = some x → x.active = true → s.owner si = some o →
      (Passes x dst ∧ draws si ≠ none ↔ Allowed nets o.peer dst)) ∧
    (Machine.Steps (step lib b cfg) (fun s e _ => ReusesOwn b cfg s e) init s →
      (∀ si x o, s.sessions[si]? = some x → x.active = true → s.owner si = some o →
        x.tunIp = firstAddr (netsOf nets o.peer)) ∧
      ((∀ si, draws si ≠ none) → (RoutedByOwner b nets s t pkt dst ↔ ∀ si x o, s.sessions[si]? = some x →
        x.active = true → s.owner si = some o → (Allowed nets o.peer dst ↔
          dst = 0 ∨ firstAddr (netsOf nets o.peer) = 0 ∨ dst = firstAddr (netsOf nets o.peer))))) ∧
    (RoutedByOwner b nets s t pkt dst → ∀ si x o peer, s.sessions[si]? = some x → x.active = true → s.owner si = some o →
      Allowed nets peer dst → SendsTo b s t pkt si → o.peer = peer) := by
  have routed_iff : RoutedByOwner b nets s t pkt dst ↔ ∀ si x o, s.sessions[si]? = some x → x.active = true →
      s.owner si = some o → (Passes x dst ∧ draws si ≠ none ↔ Allowed nets o.peer dst) := by
    refine ⟨fun routed si x o hx live ho => ?_, fun good si x hx live => ?_⟩
    · obtain ⟨o', ho', hiff⟩ := routed si x hx live
      cases ho.symm.trans ho'
      rw [← sendsTo_iff wf h hx live]
      exact hiff
    · obtain ⟨o, ho, -⟩ := run.keysConfirmed si x hx live
      exact ⟨o, ho, (sendsTo_iff wf h hx live).trans (good si x o hx live ho)⟩
  refine ⟨routed_iff, fun reuses => ?_, fun routed si x o peer hx live ho allowed sends => ?_⟩
  · have first : ∀ si x o, s.sessions[si]? = some x → x.active = true → s.owner si = some o →
        x.tunIp = firstAddr (netsOf nets o.peer) := by
      intro si x o hx live ho
      have onePeer : OnePeer cfg s := reuses.invariant (fun _ _ h => nomatch h) fun inv h good => step_onePeer inv h good
      obtain ⟨o', ho', -, -, htun⟩ := onePeer si x hx live
      cases ho.symm.trans ho'
      rw [htun, config.tunIpOf (run.peersKnown.owner ho)]
    refine ⟨first, fun nonces => routed_iff.trans ?_⟩
    refine forall₃_congr fun si x o => forall₃_congr fun hx live ho => ?_
    rw [Passes, first si x o hx live ho, and_iff_left (nonces si)]
    exact Iff.comm
  · obtain ⟨o', ho', hiff⟩ := routed si x hx live
    cases ho.symm.trans ho'
    exact allowed_unique config (hiff.mp sends) allowed

/-! ### Carol's networks -/

def carolNet : Cidr := ⟨0x0a000100, 24, by decide⟩
def aliceNet : Cidr := ⟨0x0a000002, 32, by decide⟩

def bobSections (carolIps : Option (List Char)) : List PeerSection :=
  [⟨some (keyText carolPub), carolIps⟩, ⟨some (keyText alice.pub), some aliceNet.text⟩]

def sectionsConfig (secs : List PeerSection) : UdpConfig := ⟨bob.priv, (loadPeers .init 0 secs).entries, 0⟩

theorem bobSections_keys (ips : Option (List Char)) : ∀ sec ∈ bobSections ips, sec.HasKey := by
  intro sec hsec
  rcases List.mem_pair.mp hsec with rfl | rfl
  · exact ⟨_, rfl, by decide +kernel, by decide +kernel⟩
  · exact ⟨_, rfl, by decide +kernel, by decide +kernel⟩

theorem cidrList_text (net : Cidr) : CidrList net.text [net] := by
  have h := CidrList.last [] [] net (List.forall_mem_nil _) (List.forall_mem_nil _)
  rwa [List.nil_append, List.append_nil] at h

/-- The header of an IPv4 packet from 10.0.0.1, without payload. -/
def packetTo (d0 d1 d2 d3 : UInt8) : Octets := [0x45, 0, 0, 20, 0, 0, 0, 0, 64, 17, 0, 0, 10, 0, 0, 1, d0, d1, d2, d3]

theorem bobSections_pubs (ips : Option (List Char)) :
    (loadPeers .init 0 (bobSections ips)).entries.map (·.pub) = [carolPub, alice.pub] := by
  have hcarol : parseHex 32 (keyText carolPub) = (some 32, carolPub.toList) := by decide +kernel
  have halice : parseHex 32 (keyText alice.pub) = (some 32, alice.pub.toList) := by decide +kernel
  have hlen : ∀ w : Word 32, (keyText w).length = 64 := by
    intro w
    simp [keyText, hexByte]
  have hload : ∀ w w' : Word 32, load 32 (w.toList ++ w'.toList.drop w.toList.length) = w := by simp
  simp only [bobSections, loadPeers, loadPeer, hcarol, halice, hlen, hload, if_true]
  rfl

/-- With two peers, the first of them Carol, her session is there when the server comes to the device. -/
theorem carol_at_tun (own : cfg.asymPriv = bob.priv) (peers : cfg.peers.map (·.pub) = [carolPub, alice.pub]) :
    ∃ s x, Reachable udpSsl .pureC cfg s ∧ s.pc = .tun ∧ s.sessions[0]? = some x ∧ x.active = true ∧
      x.tunIp = cfg.tunIpOf 0 ∧ s.owner 0 = some (bobOffer 0 bobCarolHash 1000) := by
  have polled : Reachable udpSsl .pureC cfg { init with pc := .udp true } :=
    .tail .refl (e := .round true (.ready true true)) rfl trivial
  have answered := bob_offers udpSsl_bob_carol (by decide : (0 : Int64) ≤ 1000) [alice.pub]
  rw [← own, ← peers] at answered
  obtain ⟨s, run, hpc, -, hsessions, hinstalls⟩ := polled.joined (natClient 4000) 1000 rfl
    length_udpHsBuild getD_udpHsBuild (rateInit_admits ..) answered
  have hdrained : step udpSsl .pureC cfg s (.recv true .again 0 (bobHost 0) []) = some { s with pc := .tun } := by
    simp only [step, hpc]
    rfl
  refine ⟨_, _, run.next hdrained, rfl, by rw [hsessions]; rfl, rfl, rfl, ?_⟩
  rw [owner, hinstalls]
  rfl

theorem configured_carolNet :
    Configured (bobSections (some carolNet.text)) [[carolNet], [aliceNet]]
      (sectionsConfig (bobSections (some carolNet.text))) where
  table := rfl
  keys := bobSections_keys _
  allows := .cons (.listed (cidrList_text carolNet)) (.cons (.listed (cidrList_text aliceNet)) .nil)
  disjoint := by
    simp only [List.pairwise_cons, List.mem_singleton, forall_eq, List.not_mem_nil, false_implies, implies_true,
      List.Pairwise.nil, and_true]
    intro ip hin hin'
    have hin : ip.toNat / 2 ^ 8 = 0x0a0001 := hin
    have hin' : ip.toNat / 2 ^ 0 = 0x0a000002 := hin'
    omega

theorem configured_none : Configured (bobSections none) [[], [aliceNet]] (sectionsConfig (bobSections none)) where
  table := rfl
  keys := bobSections_keys _
  allows := .cons .all (.cons (.listed (cidrList_text aliceNet)) .nil)
  disjoint := by simp

/-- Whether Carol, with the first section, is sent a packet. -/
theorem carol_sent_iff {ips : Option (List Char)} {nets : List (List Cidr)} {pkt : Octets} {dst : UInt32}
    (config : Configured (bobSections ips) nets (sectionsConfig (bobSections ips))) (wf : Ipv4 pkt dst) :
    ∃ s t x o, Reachable udpSsl .pureC (sectionsConfig (bobSections ips)) s ∧ s.sessions[0]? = some x ∧ x.active = true ∧
      s.owner 0 = some o ∧ o.peer = 0 ∧
      step udpSsl .pureC (sectionsConfig (bobSections ips)) s (.read true (.packet pkt) fun _ => some (Word.zero 8)) = some t ∧
      (SendsTo .pureC s t pkt 0 ↔ dst = 0 ∨ firstAddr (netsOf nets 0) = 0 ∨ dst = firstAddr (netsOf nets 0)) := by
  have hpubs : (sectionsConfig (bobSections ips)).peers.map (·.pub) = [carolPub, alice.pub] := bobSections_pubs ips
  have hlen : 0 < (sectionsConfig (bobSections ips)).peers.length := by
    have := congrArg List.length hpubs
    rw [List.length_map] at this
    rw [this]
    decide
  obtain ⟨s, x, run, hpc, hx, live, htun, ho⟩ := carol_at_tun rfl hpubs
  have hstep : step udpSsl .pureC (sectionsConfig (bobSections ips)) s (.read true (.packet pkt) fun _ => some (Word.zero 8)) =
      some (s.onPacket .pureC pkt fun _ => some (Word.zero 8)) := by
    simp only [step, hpc, wf.isEmpty_eq, Bool.not_true, Bool.false_eq_true, if_false]
  refine ⟨s, _, x, _, run, hx, live, ho, rfl, hstep, ?_⟩
  rw [sendsTo_iff wf hstep hx live, Passes, htun, config.tunIpOf hlen]
  simp

/-- A packet to a host of Carol's network does not go to her; and without a list for Carol, a packet to
    Alice goes to Carol. -/
theorem packets_misrouted :
    (∃ cfg s t x o, Configured (bobSections (some carolNet.text)) [[carolNet], [aliceNet]] cfg ∧
      Reachable udpSsl .pureC cfg s ∧ s.sessions[0]? = some x ∧ x.active = true ∧ s.owner 0 = some o ∧
      Ipv4 (packetTo 10 0 1 5) 0x0a000105 ∧ Allowed [[carolNet], [aliceNet]] o.peer 0x0a000105 ∧
      step udpSsl .pureC cfg s (.read true (.packet (packetTo 10 0 1 5)) fun _ => some (Word.zero 8)) = some t ∧
      ¬ SendsTo .pureC s t (packetTo 10 0 1 5) 0) ∧
    (∃ cfg s t x o, Configured (bobSections none) [[], [aliceNet]] cfg ∧
      Reachable udpSsl .pureC cfg s ∧ s.sessions[0]? = some x ∧ x.active = true ∧ s.owner 0 = some o ∧ o.peer = 0 ∧
      Ipv4 (packetTo 10 0 0 2) 0x0a000002 ∧ Allowed [[], [aliceNet]] 1 0x0a000002 ∧
      step udpSsl .pureC cfg s (.read true (.packet (packetTo 10 0 0 2)) fun _ => some (Word.zero 8)) = some t ∧
      SendsTo .pureC s t (packetTo 10 0 0 2) 0) := by
  constructor
  · have wf : Ipv4 (packetTo 10 0 1 5) 0x0a000105 := ⟨by decide, by decide, by decide, by decide, by decide⟩
    obtain ⟨s, t, x, o, run, hx, live, ho, hpeer, hstep, hiff⟩ := carol_sent_iff configured_carolNet wf
    refine ⟨_, s, t, x, o, configured_carolNet, run, hx, live, ho, wf, ?_, hstep, fun hsent => ?_⟩
    · rw [hpeer]
      exact ⟨carolNet, List.mem_singleton_self _, rfl⟩
    · exact absurd (hiff.mp hsent) (by decide)
  · have wf : Ipv4 (packetTo 10 0 0 2) 0x0a000002 := ⟨by decide, by decide, by decide, by decide, by decide⟩
    obtain ⟨s, t, x, o, run, hx, live, ho, hpeer, hstep, hiff⟩ := carol_sent_iff configured_none wf
    exact ⟨_, s, t, x, o, configured_none, run, hx, live, ho, hpeer, wf, ⟨aliceNet, List.mem_singleton_self _, rfl⟩, hstep,
      hiff.mpr (.inr (.inl rfl))⟩

theorem routing_iff_carol :
    ∃ cfg s t, Configured (bobSections none) [[], [aliceNet]] cfg ∧
      step udpSsl .pureC cfg s (.read true (.packet (packetTo 10 0 0 2)) fun _ => some (Word.zero 8)) = some t ∧
      (RoutedByOwner .pureC [[], [aliceNet]] s t (packetTo 10 0 0 2) 0x0a000002 ↔
        ∀ si x o, s.sessions[si]? = some x → x.active = true → s.owner si = some o →
          (Passes x 0x0a000002 ∧ some (Word.zero 8) ≠ none ↔ Allowed [[], [aliceNet]] o.peer 0x0a000002)) := by
  have wf : Ipv4 (packetTo 10 0 0 2) 0x0a000002 := ⟨by decide, by decide, by decide, by decide, by decide⟩
  obtain ⟨s, t, x, o, run, hx, live, ho, hpeer, hstep, hiff⟩ := carol_sent_iff configured_none wf
  exact ⟨_, s, t, configured_none, hstep, (routing_iff udpSsl .pureC _ _ _ s t _ _ _ configured_none run wf hstep).1⟩

end UdpServer

end AegisTunnel
