import AegisTunnel.Theorems.ModeTunUdp

/-! The sessions of the UDP server over whole runs: to which peer they belong, what can change them and
    when a handshake gets one. -/

namespace AegisTunnel
open Octets

namespace UdpServer
variable {lib : OpenSsl} {b : Backend} {cfg : UdpConfig} {s t : UdpServer} {e : UdpEvent}

/-! ### Sessions and peers -/

/-- Every live session has the keys and the tunnel address of one peer. -/
def OnePeer (cfg : UdpConfig) (s : UdpServer) : Prop :=
  ∀ si x, s.sessions[si]? = some x → x.active = true → ∃ o, s.owner si = some o ∧ x.encKey = o.keys.encKey ∧
    x.decKey = o.keys.decKey ∧ x.tunIp = cfg.tunIpOf o.peer

/-- A handshake that is completed from an address in use is by a peer with the tunnel address of the
    peer who owns the session there. -/
def ReusesOwn (b : Backend) (cfg : UdpConfig) (s : UdpServer) (e : UdpEvent) : Prop :=
  ∀ offer tunIn d sender now si o, s.pc = .confirm offer tunIn → e = .await true (.dgram d sender now) →
    udpConfirmed b offer.keys.decKey d = true → sessionFind s.sessions sender = some si → s.owner si = some o →
    cfg.tunIpOf o.peer = cfg.tunIpOf offer.peer

theorem step_onePeer (inv : OnePeer cfg s) (h : step lib b cfg s e = some t) (good : ReusesOwn b cfg s e) :
    OnePeer cfg t := by
  intro si y hy live
  rcases (step_table h).1.slot hy live with ⟨x, hx, hlive, henc, hdec, htun, -, howner⟩ |
    ⟨offer, tunIn, d, sender, now, waiting, event, hconfirmed, -, henc, hdec, -, howner, hplace⟩
  · obtain ⟨o, ho, hoenc, hodec, hotun⟩ := inv si x hx hlive
    exact ⟨o, howner.trans ho, henc.trans hoenc, hdec.trans hodec, htun.trans hotun⟩
  · refine ⟨offer, howner, henc, hdec, ?_⟩
    rcases hplace with ⟨hfind, x, hx, hlive, htun⟩ | ⟨-, -, htun⟩
    · obtain ⟨o, ho, -, -, hotun⟩ := inv si x hx hlive
      rw [htun, hotun]
      exact good offer tunIn d sender now si o waiting event hconfirmed hfind ho
    · exact htun

/-- A handshake from an address in use leaves the tunnel address of that session as it was. -/
theorem step_reuse {offer : UdpOffer} {tunIn : Bool} {d : Octets} {sender : SockAddr} {now : Int64} {si : Nat} {x : UdpSession}
    (h : step lib b cfg s (.await true (.dgram d sender now)) = some t) (waiting : s.pc = .confirm offer tunIn)
    (hconfirmed : udpConfirmed b offer.keys.decKey d = true) (hfind : sessionFind s.sessions sender = some si)
    (hx : s.sessions[si]? = some x) :
    t.owner si = some offer ∧ ∃ y, t.sessions[si]? = some y ∧ y.active = true ∧ y.tunIp = x.tunIp := by
  have ht : t = s.onConfirm b cfg offer tunIn d sender now := by
    rw [step_confirm lib b cfg d sender now waiting] at h
    exact (Option.some.inj h).symm
  have hslot : sessionSlot s.sessions sender = some si := by
    have hfind : Slots.find (·.active) (·.addr.ip) s.sessions sender.ip = some si := hfind
    rw [sessionSlot, Slots.slot, hfind]
  rw [ht, onConfirm_of_confirmed hconfirmed]
  exact ⟨owner_slot rfl hslot, _, Slots.getElem?_put_of_found hfind hx, rfl, rfl⟩

/-- Session identity: in every run in which a handshake from an address in use is by a peer with the same
    tunnel address, each live session has the keys and the tunnel address of one peer; and where that
    holds before a step, it holds after it exactly if the step is such. -/
theorem sessions_onePeer (lib : OpenSsl) (b : Backend) (cfg : UdpConfig) :
    (∀ t, Machine.Steps (step lib b cfg) (fun s e _ => ReusesOwn b cfg s e) init t → OnePeer cfg t) ∧
    (∀ s e t, OnePeer cfg s → step lib b cfg s e = some t → (OnePeer cfg t ↔ ReusesOwn b cfg s e)) := by
  refine ⟨fun t run => ?_, fun s e t inv h => ⟨fun after => ?_, step_onePeer inv h⟩⟩
  · exact run.invariant (fun _ _ h => nomatch h) fun inv h good => step_onePeer inv h good
  · rintro offer tunIn d sender now si o waiting rfl hconfirmed hfind ho
    obtain ⟨x, hx, hlive, -⟩ := Slots.find_eq_some hfind
    obtain ⟨howner, y, hy, live, htun⟩ := step_reuse h waiting hconfirmed hfind hx
    obtain ⟨o', ho', -, -, htun'⟩ := inv si x hx hlive
    obtain ⟨o'', ho'', -, -, htun''⟩ := after si y hy live
    cases ho.symm.trans ho'
    cases howner.symm.trans ho''
    rw [← htun', ← htun, htun'']

theorem sessions_onePeer_carol :
    ∃ t x, Machine.Steps (step udpSsl .pureC bobConfig) (fun s e _ => ReusesOwn .pureC bobConfig s e) init t ∧
      t.sessions[0]? = some x ∧ x.active = true ∧ OnePeer bobConfig t := by
  obtain ⟨s, hs⟩ : ∃ s : UdpServer, s = { init with pc := .udp false } := ⟨_, rfl⟩
  have hpoll : step udpSsl .pureC bobConfig init (.round true (.ready true false)) = some s := hs ▸ rfl
  have admitted : (handshakeRateCheck (inetNtop (natClient 4000).ip) 1000 s.rate).1 = true := hs ▸ rateInit_admits ..
  have answered : (udpTryPeers udpSsl .pureC bobConfig.asymPriv _ 0 (bobConfig.peers.map (·.pub)) (bobHost 1000)).1 =
      some (bobOffer 0 bobCarolHash 1000) := bob_offers udpSsl_bob_carol (by decide) [alice.pub]
  obtain ⟨t, hinit, hpc, hsessions⟩ : ∃ t, step udpSsl .pureC bobConfig s (.recv true (.dgram _ (natClient 4000)) 1000
      (bobHost 1000) []) = some t ∧ t.pc = .confirm (bobOffer 0 bobCarolHash 1000) false ∧ t.sessions = [] :=
    ⟨_, step_init [] (by rw [hs]) length_udpHsBuild getD_udpHsBuild admitted answered, rfl, by rw [hs]; rfl⟩
  have hconfirmed : udpConfirmed .pureC (bobOffer 0 bobCarolHash 1000).keys.decKey
      (udpConfirm .pureC (bobOffer 0 bobCarolHash 1000).keys.decKey) = true := udpConfirmed_udpConfirm
  have hconfirm := step_confirm udpSsl .pureC bobConfig (udpConfirm .pureC (bobOffer 0 bobCarolHash 1000).keys.decKey)
    (natClient 4000) 1000 hpc
  rw [onConfirm_of_confirmed hconfirmed, hsessions] at hconfirm
  -- The table is empty until the confirmation, so no step of the run reuses a session.
  have run : Machine.Steps (step udpSsl .pureC bobConfig) (fun s e _ => ReusesOwn .pureC bobConfig s e) init _ :=
    .tail (.tail (.tail .refl hpoll fun _ _ _ _ _ _ _ _ event => nomatch event) hinit
      fun _ _ _ _ _ _ _ _ event => nomatch event) hconfirm
      fun _ _ _ _ _ _ _ _ _ _ hfind => by rw [hsessions] at hfind; exact nomatch hfind
  exact ⟨_, _, run, rfl, rfl, (sessions_onePeer udpSsl .pureC bobConfig).1 _ run⟩

/-- Carol and Alice behind one address: Alice's keys come into the session that has Carol's tunnel address. -/
theorem session_of_two_peers :
    ∃ s x, ∃ o : UdpOffer, Reachable udpSsl .pureC bobConfig s ∧ s.sessions[0]? = some x ∧ x.active = true ∧
      s.owner 0 = some o ∧ x.encKey = o.keys.encKey ∧ x.decKey = o.keys.decKey ∧ o.peer = 1 ∧
      x.tunIp = bobConfig.tunIpOf 0 ∧ x.tunIp ≠ bobConfig.tunIpOf 1 ∧ ¬ OnePeer bobConfig s := by
  obtain ⟨s, run, hpc, hrate, hsessions, hinstalls⟩ := carol_joined 4000
  obtain ⟨t, run', -, -, hsessions', hinstalls'⟩ := run.joined (natClient 5000) 1000
    hpc length_udpHsBuild getD_udpHsBuild (by rw [hrate]; decide) bob_offers_second
  rw [hsessions] at hsessions' hinstalls'
  have howner : t.owner 0 = some (bobOffer 1 aliceBobHash 1000) := by
    rw [owner, hinstalls']
    rfl
  have hslot : t.sessions[0]? = some ⟨natClient 5000, (bobOffer 1 aliceBobHash 1000).keys.encKey,
      (bobOffer 1 aliceBobHash 1000).keys.decKey, 0x0a000003, 1000, true⟩ := by
    rw [hsessions']
    rfl
  refine ⟨t, _, _, run', hslot, rfl, howner, rfl, rfl, rfl, rfl, by decide, fun inv => ?_⟩
  obtain ⟨o, ho, -, -, htun⟩ := inv 0 _ hslot rfl
  cases howner.symm.trans ho
  exact absurd htun (by decide)

/-! ### Datagrams without authentication -/

/-- The datagram completes the handshake that the server is waiting to complete. -/
def Completes (b : Backend) (s : UdpServer) (d : Octets) : Prop :=
  ∃ offer tunIn, s.pc = .confirm offer tunIn ∧ udpConfirmed b offer.keys.decKey d = true

/-- The datagram is a frame under the key of the session of its sender. -/
def Authenticates (b : Backend) (s : UdpServer) (d : Octets) (sender : SockAddr) : Prop :=
  ∃ si x f, sessionFind s.sessions sender = some si ∧ s.sessions[si]? = some x ∧
    frameParseExplicit b (d.take udpMaxDgram) x.decKey = .ok f

/-- The datagram is taken for data of a session with another port than the sender's. -/
def MovesPort (s : UdpServer) (d : Octets) (sender : SockAddr) : Prop :=
  (∃ tunIn, s.pc = .udp tunIn) ∧ ¬ IsHandshake d ∧
    ∃ si x, sessionFind s.sessions sender = some si ∧ s.sessions[si]? = some x ∧ x.addr.port ≠ sender.port

theorem set_port_eq_iff {l : List UdpSession} {si : Nat} {x : UdpSession} (hx : l[si]? = some x) (port : UInt16) :
    l.set si { x with addr.port := port } = l ↔ x.addr.port = port := by
  constructor
  · intro h
    have hsi := congrArg (·[si]?) h
    simp only [hx, List.getElem?_set_self (List.getElem?_eq_some_iff.mp hx).1, Option.some.injEq] at hsi
    exact (congrArg (·.addr.port) hsi).symm
  · rintro rfl
    obtain ⟨hlt, rfl⟩ := List.getElem?_eq_some_iff.mp hx
    exact List.set_getElem_self hlt

theorem DatagramEffect.sessions_iff {tunIn : Bool} {d : Octets} {sender : SockAddr} {now : Int64} {writes : List Sent}
    (h : DatagramEffect lib b cfg s tunIn d sender now writes t) (place : s.pc = .udp tunIn)
    (unauthentic : ¬ Authenticates b s d sender) : t.sessions = s.sessions ↔ ¬ MovesPort s d sender := by
  rcases h with ⟨rate, handshake, rfl⟩ | ⟨rate, offer, host, handshake, -, rfl⟩ | ⟨-, hnone, rfl⟩ |
    ⟨si, x, data, hfind, hx, -, -, rfl⟩ | ⟨si, x, f, -, hfind, hx, -, hf, -⟩
  · exact iff_of_true rfl fun hmoves => hmoves.2.1 handshake
  · exact iff_of_true rfl fun hmoves => hmoves.2.1 handshake
  · refine iff_of_true rfl ?_
    rintro ⟨-, -, si, x, hfind, -⟩
    cases hnone.symm.trans hfind
  · refine (set_port_eq_iff hx sender.port).trans ⟨?_, fun hmoves => ?_⟩
    · rintro hport ⟨-, -, si', x', hfind', hx', hne⟩
      cases hfind.symm.trans hfind'
      cases hx.symm.trans hx'
      exact hne hport
    · by_contra hne
      exact hmoves ⟨⟨tunIn, place⟩, data, si, x, hfind, hx, hne⟩
  · exact absurd ⟨si, x, f, hfind, hx, hf⟩ unauthentic

/-- A datagram that neither completes a handshake nor is authentic for the session of its sender leaves
    the table as it is, except where it is taken for data of a session with another port. -/
theorem unauthenticated_table_iff (lib : OpenSsl) (b : Backend) (cfg : UdpConfig) (s t : UdpServer) (e : UdpEvent)
    (d : Octets) (sender : SockAddr) (h : step lib b cfg s e = some t) (received : e.datagram = some (d, sender))
    (incomplete : ¬ Completes b s d) (unauthentic : ¬ Authenticates b s d sender) :
    t.sessions = s.sessions ↔ ¬ MovesPort s d sender := by
  obtain ⟨pc, -, quiet, -⟩ | ⟨quiet, -⟩ | ⟨tunIn, d', sender', now, host, writes, place, rfl, rfl⟩ |
    ⟨offer, tunIn, d', sender', now, place, rfl, rfl⟩ | ⟨pkt, draws, -, rfl, -⟩ | ⟨now, draws, -, rfl, -⟩ := step_effect h
  · cases quiet.symm.trans received
  · cases quiet.symm.trans received
  · cases received
    exact (onDatagram_effect ..).sessions_iff place unauthentic
  · cases received
    have hnot : udpConfirmed b offer.keys.decKey d = false := by
      by_contra hc
      exact incomplete ⟨offer, tunIn, place, by simpa using hc⟩
    rw [onConfirm_of_not hnot]
    refine ⟨?_, fun _ => rfl⟩
    rintro - ⟨⟨tunIn', hpc⟩, -⟩
    cases place.symm.trans hpc
  · cases received
  · cases received

/-- An empty datagram from another port of Carol's address moves her session to that port. -/
theorem unauthenticated_datagram_moves_port :
    ∃ s t, Reachable udpSsl .pureC bobConfig s ∧
      step udpSsl .pureC bobConfig s (.recv true (.dgram [] (natClient 5000)) 1001 (bobHost 1001) []) = some t ∧
      ¬ Completes .pureC s [] ∧ ¬ Authenticates .pureC s [] (natClient 5000) ∧
      s.sessions.map (·.addr) = [natClient 4000] ∧ t.sessions.map (·.addr) = [natClient 5000] := by
  obtain ⟨s, run, hpc, -, hsessions, -⟩ := carol_joined 4000
  refine ⟨s, s.onDatagram udpSsl .pureC bobConfig false [] (natClient 5000) 1001 (bobHost 1001) [], run, ?_, ?_, ?_, ?_, ?_⟩
  · simp only [step, hpc, Bool.not_true, Bool.false_eq_true, if_false]
  · rintro ⟨offer, tunIn, hpc', -⟩
    cases hpc.symm.trans hpc'
  · rintro ⟨si, x, f, -, -, hf⟩
    cases hf
  · rw [hsessions]
    rfl
  · obtain ⟨sessions, rate, pc, received, sent, wrote, installs⟩ := s
    cases hsessions
    rfl

theorem unauthenticated_table_iff_carol :
    ∃ s t, step udpSsl .pureC bobConfig s (.recv true (.dgram [] (natClient 5000)) 1001 (bobHost 1001) []) = some t ∧
      (t.sessions = s.sessions ↔ ¬ MovesPort s [] (natClient 5000)) := by
  obtain ⟨s, -, hpc, -⟩ := carol_joined 4000
  have h : step udpSsl .pureC bobConfig s (.recv true (.dgram [] (natClient 5000)) 1001 (bobHost 1001) []) =
      some (s.onDatagram udpSsl .pureC bobConfig false [] (natClient 5000) 1001 (bobHost 1001) []) := by
    simp only [step, hpc, Bool.not_true, Bool.false_eq_true, if_false]
  refine ⟨s, _, h, unauthenticated_table_iff udpSsl .pureC bobConfig s _ _ [] (natClient 5000) h rfl ?_ ?_⟩
  · rintro ⟨offer, tunIn, hpc', -⟩
    cases hpc.symm.trans hpc'
  · rintro ⟨si, x, f, -, -, hf⟩
    cases hf

/-! ### A session for each handshake -/

theorem hasSession_onConfirm_iff {offer : UdpOffer} {d : Octets} (tunIn : Bool) (addr : SockAddr) (now : Int64)
    (confirmed : udpConfirmed b offer.keys.decKey d = true) (s : UdpServer) :
    HasSession (s.onConfirm b cfg offer tunIn d addr now) addr offer ↔
      (∃ x ∈ s.sessions, x.active = true ∧ x.addr.ip = addr.ip) ∨ s.sessions.length < udpMaxClients := by
  rw [onConfirm_of_confirmed confirmed]
  by_cases hslot : sessionSlot s.sessions addr = none
  · obtain ⟨hnone, full⟩ := Slots.slot_eq_none_iff.mp hslot
    refine iff_of_false ?_ ?_
    · rintro ⟨x, hx, hlive, rfl, -⟩
      have hx : x ∈ sessionInstall cfg offer x.addr now s.sessions := hx
      rw [sessionInstall, Slots.put_of_slot_none hslot] at hx
      exact hnone x hx hlive rfl
    · rintro (⟨x, hx, hlive, hip⟩ | room)
      · exact hnone x hx hlive hip
      · exact full room
  · refine iff_of_true (hasSession_install now hslot) ?_
    by_contra hnot
    refine hslot (Slots.slot_eq_none_iff.mpr ⟨fun x hx hlive hip => hnot (.inl ⟨x, hx, hlive, hip⟩), fun room => ?_⟩)
    exact hnot (.inr room)

/-- A confirmed handshake gets a session exactly when its address is in use or fewer than 64 slots have
    ever been taken; slots of expired sessions do not count as free. -/
theorem handshake_session_iff (lib : OpenSsl) (b : Backend) (cfg : UdpConfig) (s t : UdpServer) (offer : UdpOffer)
    (tunIn : Bool) (d : Octets) (addr : SockAddr) (now : Int64) (waiting : s.pc = .confirm offer tunIn)
    (confirmed : udpConfirmed b offer.keys.decKey d = true)
    (h : step lib b cfg s (.await true (.dgram d addr now)) = some t) :
    HasSession t addr offer ↔
      (∃ x ∈ s.sessions, x.active = true ∧ x.addr.ip = addr.ip) ∨ s.sessions.length < udpMaxClients := by
  rw [step_confirm lib b cfg d addr now waiting] at h
  cases h
  exact hasSession_onConfirm_iff tunIn addr now confirmed s

/-! ### Sixty-four sessions that have come and gone

Carol joins every 400 seconds and is quiet for 301 seconds, so that her session has expired before she
joins again. -/

theorem toInt_sub_ofNat {a b : Nat} (h : a ≤ b) (hb : b < 2 ^ 62) : (Int64.ofNat b - Int64.ofNat a).toInt = b - a := by
  rw [Int64.toInt_sub, Int64.toInt_ofNat_of_lt (by omega), Int64.toInt_ofNat_of_lt (by omega),
    Int.bmod_eq_of_le (by omega) (by omega)]

def roundTime (n : Nat) : Int64 := Int64.ofNat (1000 + 400 * n)

/-- A time by which the session of the round has expired. -/
def expiryTime (n : Nat) : Int64 := Int64.ofNat (1000 + 400 * n + 301)

theorem roundTime_sub {m n : Nat} (h : m < n) (hn : n ≤ 64) : roundTime n - roundTime m > rateWindowSec := by
  have h60 : rateWindowSec.toInt = 60 := rfl
  rw [gt_iff_lt, Int64.lt_iff_toInt_lt, h60, roundTime, roundTime, toInt_sub_ofNat (by omega) (by omega)]
  omega

theorem expiryTime_sub {n : Nat} (hn : n ≤ 64) : expiryTime n - roundTime n > 300 := by
  have h300 : (300 : Int64).toInt = 300 := rfl
  rw [gt_iff_lt, Int64.lt_iff_toInt_lt, h300, roundTime, expiryTime, toInt_sub_ofNat (by omega) (by omega)]
  omega

theorem roundTime_nonneg {n : Nat} (hn : n ≤ 64) : 0 ≤ roundTime n := by
  rw [roundTime, Int64.le_iff_toInt_le, Int64.toInt_ofNat_of_lt (by omega)]
  exact Int.natCast_nonneg _

theorem cleanup_expired {x : UdpSession} {now : Int64} (live : x.active = true) (h : now - x.lastSeen > 300) :
    x.cleanup 0 now = .zeroed := by
  have hk : ¬ (0 : Int32) > 0 := by decide
  simp only [UdpSession.cleanup, live, hk, h, Bool.not_true, Bool.false_eq_true, decide_false, Bool.false_and, if_false,
    if_true]

/-- `n` rounds have left `n` dead slots. -/
structure Rounds (n : Nat) (s : UdpServer) : Prop where
  run : Reachable udpSsl .pureC bobConfig s
  pc : s.pc = .poll
  dead : s.sessions = List.replicate n .zeroed
  rate : s.rate.StartedIn fun start => ∃ m < n, start = roundTime m

theorem sessionFind_dead (n : Nat) (addr : SockAddr) : sessionFind (List.replicate n .zeroed) addr = none := by
  refine Slots.find_eq_none_iff.mpr fun x hx hlive => ?_
  rw [List.eq_of_mem_replicate hx] at hlive
  cases hlive

/-- In a round Carol is admitted, whatever has gone before. -/
theorem Rounds.admitted {n : Nat} {s : UdpServer} (h : Rounds n s) (hn : n ≤ 64) (ip : List Char) :
    (handshakeRateCheck ip (roundTime n) s.rate).1 = true ∧
      (handshakeRateCheck ip (roundTime n) s.rate).2.StartedIn fun start => ∃ m < n + 1, start = roundTime m := by
  obtain ⟨hok, hstarted⟩ := handshakeRateCheck_over ip (roundTime n) h.rate (by
    rintro start ⟨m, hm, rfl⟩
    exact roundTime_sub hm hn)
  refine ⟨hok, fun i hi => ?_⟩
  rcases hstarted i hi with ⟨m, hm, hstart⟩ | hstart
  · exact ⟨m, by omega, hstart⟩
  · exact ⟨n, by omega, hstart⟩

theorem Rounds.polled {n : Nat} {s : UdpServer} (h : Rounds n s) :
    Reachable udpSsl .pureC bobConfig { s with pc := .udp false } :=
  h.run.next (e := .round true (.ready true false)) (by simp [step, h.pc])

theorem Rounds.succ {n : Nat} {s : UdpServer} (h : Rounds n s) (hn : n < 64) : ∃ t, Rounds (n + 1) t := by
  obtain ⟨hok, hstarted⟩ := h.admitted hn.le (inetNtop 0xc6336401)
  obtain ⟨t, run, hpc, hrate, hsessions, -⟩ := h.polled.joined (natClient 4000) (roundTime n) rfl length_udpHsBuild
    getD_udpHsBuild hok (bob_offers udpSsl_bob_carol (roundTime_nonneg hn.le) [alice.pub])
  have hfind : Slots.find (·.active) (·.addr.ip) s.sessions (natClient 4000).ip = none := by
    rw [h.dead]
    exact sessionFind_dead n (natClient 4000)
  rw [sessionInstall, Slots.put_of_room hfind (by rw [h.dead, List.length_replicate]; exact hn)] at hsessions
  have hdrained := run.next (e := .recv true .again 0 (bobHost 0) []) (t := { t with pc := .cleanup })
    (by simp only [step, hpc]; rfl)
  have hcleaned := hdrained.next (e := .cleanup (expiryTime n) fun _ => none) rfl
  have hexpired : ∀ x : UdpSession, x.active = true → x.lastSeen = roundTime n →
      x.cleanup bobConfig.keepalive (expiryTime n) = .zeroed :=
    fun x live hseen => cleanup_expired live (by rw [hseen]; exact expiryTime_sub hn.le)
  refine ⟨_, hcleaned, rfl, ?_, ?_⟩
  · show t.sessions.map _ = _
    rw [hsessions, h.dead]
    refine List.eq_replicate_iff.mpr ⟨by simp, fun y hy => ?_⟩
    obtain ⟨x, hx, rfl⟩ := List.mem_map.mp hy
    rcases List.mem_append.mp hx with hold | hnew
    · rw [List.eq_of_mem_replicate hold]
      rfl
    · rw [List.mem_singleton.mp hnew]
      exact hexpired _ rfl rfl
  · show t.rate.StartedIn _
    rw [hrate]
    exact hstarted

theorem exists_rounds {n : Nat} (hn : n ≤ 64) : ∃ s, Rounds n s := by
  induction n with
  | zero => exact ⟨init, .refl, rfl, rfl, rateInit_startedIn _⟩
  | succ n ih =>
    obtain ⟨s, hs⟩ := ih (by omega)
    exact hs.succ (by omega)

/-- After 64 sessions have expired, none is live, and a handshake from another address completes without a
    session. -/
theorem handshake_without_session :
    ∃ s t offer addr d now, Reachable udpSsl .pureC bobConfig s ∧ (∀ x ∈ s.sessions, x.active = false) ∧
      s.pc = .confirm offer false ∧ udpConfirmed .pureC offer.keys.decKey d = true ∧
      step udpSsl .pureC bobConfig s (.await true (.dgram d addr now)) = some t ∧ ¬ HasSession t addr offer := by
  obtain ⟨s, h⟩ := exists_rounds (le_refl 64)
  obtain ⟨t, run, hpc, -, hsessions, -⟩ := h.polled.waiting ⟨0xc6336402, 4000⟩ (roundTime 64) rfl length_udpHsBuild
    getD_udpHsBuild (h.admitted (le_refl 64) _).1 (bob_offers udpSsl_bob_carol (roundTime_nonneg (le_refl 64)) [alice.pub])
  have hsessions : t.sessions = List.replicate 64 .zeroed := hsessions.trans h.dead
  have hdead : ∀ x ∈ t.sessions, x.active = false := by
    intro x hx
    rw [hsessions] at hx
    rw [List.eq_of_mem_replicate hx]
    rfl
  have hconfirmed : udpConfirmed .pureC (bobOffer 0 bobCarolHash (roundTime 64)).keys.decKey
      (udpConfirm .pureC (bobOffer 0 bobCarolHash (roundTime 64)).keys.decKey) = true := udpConfirmed_udpConfirm
  refine ⟨t, _, _, ⟨0xc6336402, 4000⟩, _, roundTime 64, run, hdead, hpc, hconfirmed,
    step_confirm udpSsl .pureC bobConfig _ _ _ hpc, ?_⟩
  rw [hasSession_onConfirm_iff false _ _ hconfirmed]
  rintro (⟨x, hx, hlive, -⟩ | room)
  · rw [hdead x hx] at hlive
    cases hlive
  · rw [hsessions, List.length_replicate] at room
    exact absurd room (by decide)

theorem handshake_session_iff_carol :
    ∃ s t offer addr d now, Reachable udpSsl .pureC bobConfig s ∧
      step udpSsl .pureC bobConfig s (.await true (.dgram d addr now)) = some t ∧
      (HasSession t addr offer ↔
        (∃ x ∈ s.sessions, x.active = true ∧ x.addr.ip = addr.ip) ∨ s.sessions.length < udpMaxClients) := by
  obtain ⟨s, run, hpc, -⟩ := bob_polled.waiting (natClient 4000) 1000 rfl length_udpHsBuild getD_udpHsBuild
    (rateInit_admits ..)
    (bob_offers udpSsl_bob_carol (by decide : (0 : Int64) ≤ 1000) [alice.pub])
  have hstep := step_confirm udpSsl .pureC bobConfig
    (udpConfirm .pureC (bobOffer 0 bobCarolHash 1000).keys.decKey) (natClient 4000) 1000 hpc
  exact ⟨s, _, _, _, _, _, run, hstep,
    handshake_session_iff udpSsl .pureC bobConfig s _ _ false _ _ _ hpc udpConfirmed_udpConfirm hstep⟩

end UdpServer

end AegisTunnel
