import AegisTunnel.ClientModes
import AegisTunnel.Theorems.IniConfig

/-! # The clients and the configured peer

Each client is to ask for the host and the port of the remote address that was given. -/

namespace AegisTunnel

/-- The endpoints of the peers are no other host than the empty one with the port `port`, which one of them is. -/
def EndpointsLead (v : MainVars) (port : Int) : Prop :=
  (∀ i < tunPeerCount v [], v.endpoint i ≠ [] →
    endpointHost (v.endpoint i) = none ∨ endpointHost (v.endpoint i) = some ([], port)) ∧
  ∃ i < tunPeerCount v [], v.endpoint i = [] ∨ endpointHost (v.endpoint i) = some ([], port)

/-! ### The remote address -/

theorem parseHostPort_eq {r host : List Char} {port : Int} (h : parseHostPort r = some (host, port)) :
    0 < port ∧ ∃ digits, r = host ++ ':' :: digits := by
  unfold parseHostPort at h
  cases hcut : strchr ':' r.reverse with
  | none =>
    rw [hcut] at h
    cases h
  | some parts =>
    obtain ⟨after, before⟩ := parts
    simp only [hcut] at h
    split at h
    case isFalse => cases h
    case isTrue hport =>
      obtain ⟨rfl, rfl⟩ := Prod.mk.inj (Option.some.inj h)
      refine ⟨hport.1, after.reverse, ?_⟩
      have hrev := congrArg List.reverse (strchr_eq_some hcut)
      rw [List.reverse_reverse] at hrev
      simpa using hrev

/-- The whole text is not its host, even if that is cut. -/
theorem take_host_ne {r host : List Char} {port : Int} (h : parseHostPort r = some (host, port)) (n : Nat) :
    r ≠ host.take n := by
  obtain ⟨-, digits, rfl⟩ := parseHostPort_eq h
  intro same
  have hlen := congrArg List.length same
  rw [List.length_append, List.length_cons, List.length_take] at hlen
  omega

/-! ### What each client asks for -/

section Asks
variable {v : MainVars} {host : List Char} {port : Int} {q : List Char × Int}

theorem asks_socks5_iff : Asks v (.socks5Client host port) q ↔ q = (host, port) := by
  constructor
  · rintro ⟨⟩
    rfl
  · rintro rfl
    exact .socks5 ..

theorem asks_tunUdp_iff : Asks v (.tunUdpClient host port) q ↔ q = (host, port) := by
  constructor
  · rintro ⟨⟩
    rfl
  · rintro rfl
    exact .tunUdp ..

theorem asks_psk_iff : Asks v (.pskClient host port) q ↔ q = (host, port) := by
  constructor
  · rintro ⟨⟩
    rfl
  · rintro rfl
    exact .psk ..

theorem tunPeerCount_pos (v : MainVars) (host : List Char) : 0 < tunPeerCount v host := by
  unfold tunPeerCount
  split
  case isTrue h => exact h.2
  case isFalse => decide

theorem peerIdx_iff {n i : Nat} (pos : 0 < n) : PeerIdx n i ↔ i < n := by
  constructor
  · intro h
    cases h with
    | start => exact pos
    | next _ => exact Nat.mod_lt _ pos
  · intro h
    induction i with
    | zero => exact .start
    | succ i ih =>
      have hnext := PeerIdx.next (ih (Nat.lt_of_succ_lt h))
      rwa [Nat.mod_eq_of_lt h] at hnext

theorem asks_tun_iff : Asks v (.tunClient host port) q ↔ ∃ i < tunPeerCount v host, tunHost v host port i = some q := by
  constructor
  · rintro ⟨⟩
    case tun i round peer => exact ⟨i, (peerIdx_iff (tunPeerCount_pos ..)).mp round, peer⟩
  · rintro ⟨i, hi, peer⟩
    exact .tun ((peerIdx_iff (tunPeerCount_pos ..)).mpr hi) peer

/-- With a host, the endpoints of the peers do not count. -/
theorem asks_tun_of_ne (h : host ≠ []) : Asks v (.tunClient host port) q ↔ q = (host, port) := by
  rw [asks_tun_iff]
  simp only [tunHost, if_pos h, Option.some.injEq]
  constructor
  · rintro ⟨-, -, rfl⟩
    rfl
  · rintro rfl
    exact ⟨0, tunPeerCount_pos .., rfl⟩

/-- Without one, they do. -/
theorem asks_tun_nil : (∀ q, Asks v (.tunClient [] port) q ↔ q = ([], port)) ↔ EndpointsLead v port := by
  simp only [asks_tun_iff]
  have hhost : ∀ i, tunHost v [] port i =
      if v.endpoint i ≠ [] then endpointHost (v.endpoint i) else some ([], port) := fun i => if_neg (not_not_intro rfl)
  constructor
  · intro h
    refine ⟨?_, ?_⟩
    · intro i hi hne
      cases hpeer : endpointHost (v.endpoint i) with
      | none => exact Or.inl rfl
      | some q =>
        have hq := (h q).mp ⟨i, hi, by rw [hhost, if_pos hne, hpeer]⟩
        exact Or.inr (congrArg some hq)
    · obtain ⟨i, hi, hpeer⟩ := (h ([], port)).mpr rfl
      rw [hhost] at hpeer
      split at hpeer
      case isTrue => exact ⟨i, hi, Or.inr hpeer⟩
      case isFalse hnil => exact ⟨i, hi, Or.inl (not_not.mp hnil)⟩
  · rintro ⟨others, i, hi, lead⟩ q
    constructor
    · rintro ⟨j, hj, hpeer⟩
      rw [hhost] at hpeer
      split at hpeer
      case isTrue hne =>
        rcases others j hj hne with hbad | hgood
        · rw [hbad] at hpeer
          cases hpeer
        · exact (Option.some.inj (hgood.symm.trans hpeer)).symm
      case isFalse => exact (Option.some.inj hpeer).symm
    · rintro rfl
      refine ⟨i, hi, ?_⟩
      rw [hhost]
      split
      case isTrue hne => exact lead.resolve_left hne
      case isFalse => rfl

end Asks

/-! ### The four clients -/

/-- The client that is called, by the variables of `main`. -/
theorem dispatch_client {v : MainVars} {r host : List Char} {port : Int} {d : Dispatch} (remote : v.remoteStr = some r)
    (parsed : parseHostPort r = some (host, port)) (chosen : dispatch v = some d) (client : d.isClient = true) :
    (v.socks5Force ≠ 0 ∧ d = .socks5Client r port) ∨
    (v.socks5Force = 0 ∧ v.tunMode = true ∧ v.tunUdp = false ∧ d = .tunClient (host.take 255) port) ∨
    (v.socks5Force = 0 ∧ ¬ (v.tunMode = true ∧ v.tunUdp = false) ∧
      (d = .tunUdpClient (host.take 255) port ∨ d = .pskClient (host.take 255) port)) := by
  have hport := (parseHostPort_eq parsed).1.ne'
  rw [dispatch, remote, remoteOf, parsed, Option.map_some, Option.map_some, Option.some.injEq] at chosen
  split_ifs at chosen with hforce hone hudp hserver htun hserver hserver <;> subst chosen
  · cases client
  · exact Or.inl ⟨hforce, rfl⟩
  · cases client
  · refine Or.inr (Or.inr ⟨not_not.mp hforce, ?_, Or.inl rfl⟩)
    rintro ⟨-, hno⟩
    cases hudp.2.symm.trans hno
  · cases client
  · have hno : v.tunUdp ≠ true := fun hyes => hudp ⟨htun, hyes⟩
    exact Or.inr (Or.inl ⟨not_not.mp hforce, htun, Bool.not_eq_true _ ▸ hno, rfl⟩)
  · cases client
  · exact Or.inr (Or.inr ⟨not_not.mp hforce, fun both => htun both.1, Or.inr rfl⟩)

/-- A client asks for the host and the port of the remote address, and for nothing else, just if it is not the
SOCKS5 client, and, if it is the TUN client over TCP and the host is empty, the endpoints of the peers lead to it. -/
theorem dials_configured_iff (v : MainVars) (r h : List Char) (p : Int) (d : Dispatch) (remote : v.remoteStr = some r)
    (parsed : parseHostPort r = some (h, p)) (chosen : dispatch v = some d) (client : d.isClient = true) :
    (∀ q, Asks v d q ↔ q = (h.take 255, p)) ↔
      v.socks5Force = 0 ∧ (v.tunMode = true → v.tunUdp = false → h = [] → EndpointsLead v p) := by
  rcases dispatch_client remote parsed chosen client with ⟨hforce, rfl⟩ | ⟨hzero, htun, hudp, rfl⟩ | ⟨hzero, hother, hd⟩
  · constructor
    · intro all
      have hsame := (all (r, p)).mp (asks_socks5_iff.mpr rfl)
      exact absurd (Prod.mk.inj hsame).1 (take_host_ne parsed 255)
    · rintro ⟨hzero, -⟩
      exact absurd hzero hforce
  · by_cases hnil : h = []
    · subst hnil
      rw [List.take_nil, asks_tun_nil]
      constructor
      · intro lead
        exact ⟨hzero, fun _ _ _ => lead⟩
      · rintro ⟨-, lead⟩
        exact lead htun hudp rfl
    · have hhost : h.take 255 ≠ [] := by simpa using hnil
      constructor
      · intro _
        exact ⟨hzero, fun _ _ hempty => absurd hempty hnil⟩
      · intro _ q
        exact asks_tun_of_ne hhost
  · constructor
    · intro _
      exact ⟨hzero, fun htun hudp => absurd ⟨htun, hudp⟩ hother⟩
    · intro _ q
      rcases hd with rfl | rfl
      · exact asks_tunUdp_iff
      · exact asks_psk_iff

/-- A client with the option -r 10.0.0.1:9000. -/
def remoteVars (socks5Force : Nat) : MainVars where
  socks5Force := socks5Force
  tunMode := false
  tunUdp := false
  mode := "client".toList
  remoteStr := some "10.0.0.1:9000".toList
  peerEndpoints := []
  peerCount := 1

/-- The proxy asks for the host 10.0.0.1. -/
theorem dials_configured_proxy :
    dispatch (remoteVars 0) = some (.pskClient "10.0.0.1".toList 9000) ∧
      ∀ q, Asks (remoteVars 0) (.pskClient "10.0.0.1".toList 9000) q ↔ q = ("10.0.0.1".toList.take 255, 9000) := by
  have parsed : parseHostPort "10.0.0.1:9000".toList = some ("10.0.0.1".toList, 9000) := by decide +kernel
  have chosen : dispatch (remoteVars 0) = some (.pskClient "10.0.0.1".toList 9000) := by decide +kernel
  refine ⟨chosen, (dials_configured_iff (remoteVars 0) _ _ _ _ rfl parsed chosen rfl).mpr ⟨rfl, ?_⟩⟩
  intro htun
  cases htun

/-- The SOCKS5 client asks for the host "10.0.0.1:9000". -/
theorem dials_configured_socks5 :
    (dispatch (remoteVars 2) = some (.socks5Client "10.0.0.1:9000".toList 9000) ∧
      Asks (remoteVars 2) (.socks5Client "10.0.0.1:9000".toList 9000) ("10.0.0.1:9000".toList, 9000)) ∧
      ¬ ∀ (v : MainVars) (r h : List Char) (p : Int) (d : Dispatch), v.remoteStr = some r →
        parseHostPort r = some (h, p) → dispatch v = some d → d.isClient = true →
          ∀ q, Asks v d q ↔ q = (h.take 255, p) := by
  have asked : Asks (remoteVars 2) (.socks5Client "10.0.0.1:9000".toList 9000) ("10.0.0.1:9000".toList, 9000) := .socks5 ..
  have parsed : parseHostPort "10.0.0.1:9000".toList = some ("10.0.0.1".toList, 9000) := by decide +kernel
  have chosen : dispatch (remoteVars 2) = some (.socks5Client "10.0.0.1:9000".toList 9000) := by decide +kernel
  refine ⟨⟨chosen, asked⟩, ?_⟩
  intro all
  have hsame := (all (remoteVars 2) _ _ _ _ rfl parsed chosen rfl _).mp asked
  exact take_host_ne parsed 255 (Prod.mk.inj hsame).1

end AegisTunnel
