import AegisTunnel.ModeTunUdp
import AegisTunnel.Theorems.UdpHandshake

/-! The UDP server: what one step can do, to its session table above all, and a handshake from the first
    datagram to the session. -/

namespace AegisTunnel
open Octets

/-- The datagram that a round of the server receives. -/
def UdpEvent.datagram : UdpEvent → Option (Octets × SockAddr)
  | .recv true (.dgram d sender) _ _ _ => some (d, sender)
  | .await true (.dgram d sender _) => some (d, sender)
  | _ => none

namespace UdpServer
variable {lib : OpenSsl} {b : Backend} {cfg : UdpConfig} {s t : UdpServer} {e : UdpEvent}

/-! ### What a step does -/

/-- A step moves to another loop, leaves the function, takes a datagram in one of two places, sends a
    packet or cleans up. Only a datagram can start a wait for a confirmation. -/
inductive Effect (lib : OpenSsl) (b : Backend) (cfg : UdpConfig) (s : UdpServer) (e : UdpEvent) (t : UdpServer) : Prop where
  | moved (pc : UdpPc) (idle : ∀ offer tunIn, pc = .confirm offer tunIn → s.pc = pc) (quiet : e.datagram = none)
      (eq : t = { s with pc := pc })
  | left (quiet : e.datagram = none) (eq : t = s.leave)
  | datagram (tunIn : Bool) (d : Octets) (sender : SockAddr) (now : Int64) (host : World) (writes : List Sent)
      (place : s.pc = .udp tunIn) (event : e = .recv true (.dgram d sender) now host writes)
      (eq : t = s.onDatagram lib b cfg tunIn d sender now host writes)
  | confirm (offer : UdpOffer) (tunIn : Bool) (d : Octets) (sender : SockAddr) (now : Int64)
      (place : s.pc = .confirm offer tunIn) (event : e = .await true (.dgram d sender now))
      (eq : t = s.onConfirm b cfg offer tunIn d sender now)
  | packet (pkt : Octets) (draws : Nat → Option (Word 8)) (place : s.pc = .tun)
      (event : e = .read true (.packet pkt) draws) (eq : t = s.onPacket b pkt draws)
  | cleaned (now : Int64) (draws : Nat → Option (Word 8)) (place : s.pc = .cleanup) (event : e = .cleanup now draws)
      (eq : t = s.onCleanup b cfg now draws)

theorem drained_pc (s : UdpServer) (tunIn : Bool) (offer : UdpOffer) (tunIn' : Bool) :
    (s.drained tunIn).pc ≠ .confirm offer tunIn' := by
  cases tunIn <;> exact UdpPc.noConfusion

theorem Effect.drained (tunIn : Bool) (quiet : e.datagram = none) : Effect lib b cfg s e (s.drained tunIn) :=
  .moved (s.drained tunIn).pc (fun offer tunIn' h => absurd h (drained_pc s tunIn offer tunIn')) quiet rfl

theorem Effect.stays (quiet : e.datagram = none) : Effect lib b cfg s e s := .moved s.pc (fun _ _ _ => rfl) quiet rfl

theorem step_effect (h : step lib b cfg s e = some t) : Effect lib b cfg s e t := by
  cases e with
  | round running answer =>
    simp only [step] at h
    split at h
    next =>
      split at h
      next => cases h; exact .left rfl rfl
      next =>
        cases answer with
        | eintr => cases h; exact .stays rfl
        | error => cases h; exact .left rfl rfl
        | ready udpIn tunIn =>
          cases udpIn
          · cases h; exact .drained tunIn rfl
          · cases h; exact .moved (.udp tunIn) (fun _ _ h => nomatch h) rfl rfl
    next => cases h
  | recv running answer now host writes =>
    simp only [step] at h
    split at h
    next tunIn place =>
      cases running with
      | false => cases h; exact .drained tunIn rfl
      | true =>
        cases answer with
        | again => cases h; exact .drained tunIn rfl
        | error => cases h; exact .stays rfl
        | dgram d sender => cases h; exact .datagram tunIn d sender now host writes place rfl rfl
    next => cases h
  | await running answer =>
    simp only [step] at h
    split at h
    next offer tunIn place =>
      have resumed : ∀ e : UdpEvent, e.datagram = none → Effect lib b cfg s e { s with pc := .udp tunIn } :=
        fun _ quiet => .moved (.udp tunIn) (fun _ _ h => nomatch h) quiet rfl
      cases running with
      | false => cases h; exact resumed _ rfl
      | true =>
        cases answer with
        | pollEintr => cases h; exact .stays rfl
        | timeout => cases h; exact .stays rfl
        | pollError => cases h; exact resumed _ rfl
        | error => cases h; exact resumed _ rfl
        | dgram d sender now => cases h; exact .confirm offer tunIn d sender now place rfl rfl
    next => cases h
  | read running answer draws =>
    simp only [step] at h
    split at h
    next place =>
      have finished : Effect lib b cfg s (.read running answer draws) { s with pc := .cleanup } :=
        .moved .cleanup (fun _ _ h => nomatch h) rfl rfl
      cases running with
      | false => cases h; exact finished
      | true =>
        cases answer with
        | again => cases h; exact finished
        | error => cases h; exact .left rfl rfl
        | packet pkt =>
          simp only [Bool.not_true, Bool.false_eq_true, if_false] at h
          split at h
          · cases h; exact .left rfl rfl
          · cases h; exact .packet pkt draws place rfl rfl
    next => cases h
  | cleanup now draws =>
    simp only [step] at h
    split at h
    next place => cases h; exact .cleaned now draws place rfl rfl
    next => cases h

/-- The datagram goes to the handshake branch. -/
def IsHandshake (d : Octets) : Prop :=
  udpHsDgram ≤ (d.take udpMaxDgram).length ∧ (d.take udpMaxDgram).getD 0 0 = frameHandshake

/-- A datagram is refused or answered as a handshake, or it is data: of nobody with a session, or of a
    session, which moves to the sender's port before the frame is rejected or accepted. -/
inductive DatagramEffect (lib : OpenSsl) (b : Backend) (cfg : UdpConfig) (s : UdpServer) (tunIn : Bool) (d : Octets)
    (sender : SockAddr) (now : Int64) (writes : List Sent) (t : UdpServer) : Prop where
  | refused (rate : RateTable) (handshake : IsHandshake d)
      (eq : t = { s with received := s.received ++ [(sender, d)], rate := rate })
  | answered (rate : RateTable) (offer : UdpOffer) (host : World) (handshake : IsHandshake d)
      (tried : (udpTryPeers lib b cfg.asymPriv ((d.take udpMaxDgram).take udpHsDgram) 0 (cfg.peers.map (·.pub)) host).1 =
        some offer)
      (eq : t = { s with
        received := s.received ++ [(sender, d)]
        rate := rate
        pc := .confirm offer tunIn
        sent := s.sent ++ [⟨none, sender, offer.resp⟩, ⟨none, sender, offer.confirm⟩] })
  | unknown (data : ¬ IsHandshake d) (find : sessionFind s.sessions sender = none)
      (eq : t = { s with received := s.received ++ [(sender, d)] })
  | rejected (si : Nat) (x : UdpSession) (data : ¬ IsHandshake d) (find : sessionFind s.sessions sender = some si)
      (slot : s.sessions[si]? = some x) (live : x.active = true)
      (parse : ∀ f, frameParseExplicit b (d.take udpMaxDgram) x.decKey ≠ .ok f)
      (eq : t = { s with
        received := s.received ++ [(sender, d)]
        sessions := s.sessions.set si { x with addr.port := sender.port } })
  | accepted (si : Nat) (x : UdpSession) (f : Frame) (data : ¬ IsHandshake d)
      (find : sessionFind s.sessions sender = some si) (slot : s.sessions[si]? = some x) (live : x.active = true)
      (parse : frameParseExplicit b (d.take udpMaxDgram) x.decKey = .ok f)
      (eq : t = { s with
        received := s.received ++ [(sender, d)]
        sessions := s.sessions.set si { x with addr.port := sender.port, lastSeen := now }
        wrote := s.wrote ++ if f.type = frameData ∧ f.payload ≠ [] then tunWrite f.payload writes else [] })

theorem onDatagram_effect (lib : OpenSsl) (b : Backend) (cfg : UdpConfig) (tunIn : Bool) (d : Octets) (sender : SockAddr)
    (now : Int64) (host : World) (writes : List Sent) (s : UdpServer) :
    DatagramEffect lib b cfg s tunIn d sender now writes (s.onDatagram lib b cfg tunIn d sender now host writes) := by
  unfold onDatagram
  dsimp only
  split
  next handshake =>
    unfold onHandshake
    dsimp only
    split
    · split
      next => exact .refused _ handshake rfl
      next offer tried => exact .answered _ offer host handshake tried rfl
    · exact .refused _ handshake rfl
  next data =>
    unfold onData
    dsimp only
    cases find : sessionFind s.sessions sender with
    | none => exact .unknown data find rfl
    | some si =>
      obtain ⟨x, slot, live, -⟩ := Slots.find_eq_some find
      simp only [slot]
      cases parse : frameParseExplicit b (d.take udpMaxDgram) x.decKey with
      | malformed => exact .rejected si x data find slot live (fun f h => by cases parse.symm.trans h) rfl
      | rejected m => exact .rejected si x data find slot live (fun f h => by cases parse.symm.trans h) rfl
      | ok f => exact .accepted si x f data find slot live parse rfl

theorem onConfirm_of_confirmed {offer : UdpOffer} {d : Octets} (h : udpConfirmed b offer.keys.decKey d = true)
    (tunIn : Bool) (sender : SockAddr) (now : Int64) (s : UdpServer) :
    s.onConfirm b cfg offer tunIn d sender now = { s with
      pc := .udp tunIn
      received := s.received ++ [(sender, d)]
      sessions := sessionInstall cfg offer sender now s.sessions
      installs := ((sessionSlot s.sessions sender).map (·, offer)).toList ++ s.installs } := by
  rw [onConfirm, h]
  rfl

theorem onConfirm_of_not {offer : UdpOffer} {d : Octets} (h : udpConfirmed b offer.keys.decKey d = false)
    (tunIn : Bool) (sender : SockAddr) (now : Int64) (s : UdpServer) :
    s.onConfirm b cfg offer tunIn d sender now = { s with
      pc := .udp tunIn
      received := s.received ++ [(sender, d)] } := by
  rw [onConfirm, h]
  rfl

/-- An initial datagram that is admitted and answered makes the server wait for its confirmation. -/
theorem step_init {tunIn : Bool} {init : Octets} {sender : SockAddr} {now : Int64} {host : World} {offer : UdpOffer}
    (writes : List Sent) (place : s.pc = .udp tunIn) (hlen : init.length = 60) (htype : init.getD 0 0 = frameHandshake)
    (admitted : (handshakeRateCheck (inetNtop sender.ip) now s.rate).1 = true)
    (answered : (udpTryPeers lib b cfg.asymPriv init 0 (cfg.peers.map (·.pub)) host).1 = some offer) :
    step lib b cfg s (.recv true (.dgram init sender) now host writes) = some { s with
      rate := (handshakeRateCheck (inetNtop sender.ip) now s.rate).2
      pc := .confirm offer tunIn
      received := s.received ++ [(sender, init)]
      sent := s.sent ++ [⟨none, sender, offer.resp⟩, ⟨none, sender, offer.confirm⟩] } := by
  have hbuf : init.take udpMaxDgram = init := List.take_of_length_le (by rw [hlen]; decide)
  have hdgram : init.take udpHsDgram = init := List.take_of_length_le hlen.le
  have hbranch : udpHsDgram ≤ init.length ∧ init.getD 0 0 = frameHandshake := ⟨hlen.ge, htype⟩
  simp only [step, place, onDatagram, hbuf, hbranch, onHandshake, admitted, hdgram, answered, Bool.not_true,
    Bool.false_eq_true, if_false, and_self, if_true]

theorem step_confirm (lib : OpenSsl) (b : Backend) (cfg : UdpConfig) (d : Octets) (sender : SockAddr) (now : Int64)
    {offer : UdpOffer} {tunIn : Bool} (waiting : s.pc = .confirm offer tunIn) :
    step lib b cfg s (.await true (.dgram d sender now)) = some (s.onConfirm b cfg offer tunIn d sender now) := by
  simp only [step, waiting, Bool.not_true, Bool.false_eq_true, if_false]

/-! ### What a step does to the table -/

/-- The table stays, one live session is touched, a handshake is installed, or every slot is passed over. -/
inductive TableEffect (b : Backend) (cfg : UdpConfig) (s : UdpServer) (e : UdpEvent) (t : UdpServer) : Prop where
  | same (sessions : t.sessions = s.sessions) (installs : t.installs = s.installs)
  | touched (si : Nat) (x : UdpSession) (port : UInt16) (lastSeen : Int64) (slot : s.sessions[si]? = some x)
      (live : x.active = true)
      (sessions : t.sessions = s.sessions.set si { x with addr.port := port, lastSeen := lastSeen })
      (installs : t.installs = s.installs)
  | installed (offer : UdpOffer) (tunIn : Bool) (d : Octets) (sender : SockAddr) (now : Int64)
      (waiting : s.pc = .confirm offer tunIn) (event : e = .await true (.dgram d sender now))
      (confirmed : udpConfirmed b offer.keys.decKey d = true) (received : (sender, d) ∈ t.received)
      (sessions : t.sessions = sessionInstall cfg offer sender now s.sessions)
      (installs : t.installs = ((sessionSlot s.sessions sender).map (·, offer)).toList ++ s.installs)
  | cleaned (now : Int64) (sessions : t.sessions = s.sessions.map (·.cleanup cfg.keepalive now))
      (installs : t.installs = s.installs)
  | left (sessions : t.sessions = s.sessions.map fun _ => .zeroed) (installs : t.installs = s.installs)

theorem DatagramEffect.table {tunIn : Bool} {d : Octets} {sender : SockAddr} {now : Int64} {writes : List Sent}
    (h : DatagramEffect lib b cfg s tunIn d sender now writes t) :
    TableEffect b cfg s e t ∧ t.received = s.received ++ [(sender, d)] := by
  rcases h with ⟨rate, -, rfl⟩ | ⟨rate, offer, host, -, -, rfl⟩ | ⟨-, -, rfl⟩ | ⟨si, x, -, -, slot, live, -, rfl⟩ |
    ⟨si, x, f, -, -, slot, live, -, rfl⟩
  · exact ⟨.same rfl rfl, rfl⟩
  · exact ⟨.same rfl rfl, rfl⟩
  · exact ⟨.same rfl rfl, rfl⟩
  · exact ⟨.touched si x sender.port x.lastSeen slot live rfl rfl, rfl⟩
  · exact ⟨.touched si x sender.port now slot live rfl rfl, rfl⟩

theorem onConfirm_table (b : Backend) (cfg : UdpConfig) {offer : UdpOffer} {tunIn : Bool} (d : Octets) (sender : SockAddr)
    (now : Int64) (waiting : s.pc = .confirm offer tunIn) (event : e = .await true (.dgram d sender now)) :
    TableEffect b cfg s e (s.onConfirm b cfg offer tunIn d sender now) ∧
      (s.onConfirm b cfg offer tunIn d sender now).received = s.received ++ [(sender, d)] := by
  cases h : udpConfirmed b offer.keys.decKey d with
  | true =>
    rw [onConfirm_of_confirmed h]
    exact ⟨.installed offer tunIn d sender now waiting event h (by simp) rfl rfl, rfl⟩
  | false =>
    rw [onConfirm_of_not h]
    exact ⟨.same rfl rfl, rfl⟩

theorem step_table (h : step lib b cfg s e = some t) : TableEffect b cfg s e t ∧ s.received ⊆ t.received := by
  obtain ⟨pc, -, -, rfl⟩ | ⟨-, rfl⟩ | ⟨tunIn, d, sender, now, host, writes, -, -, rfl⟩ |
    ⟨offer, tunIn, d, sender, now, place, event, rfl⟩ | ⟨pkt, draws, -, -, rfl⟩ | ⟨now, draws, -, -, rfl⟩ := step_effect h
  · exact ⟨.same rfl rfl, fun _ h => h⟩
  · exact ⟨.left rfl rfl, fun _ h => h⟩
  · obtain ⟨htable, hreceived⟩ := (onDatagram_effect lib b cfg tunIn d sender now host writes s).table
    exact ⟨htable, by rw [hreceived]; exact List.subset_append_left ..⟩
  · obtain ⟨htable, hreceived⟩ := onConfirm_table b cfg d sender now place event
    exact ⟨htable, by rw [hreceived]; exact List.subset_append_left ..⟩
  · exact ⟨.same rfl rfl, fun _ h => h⟩
  · exact ⟨.cleaned now rfl rfl, fun _ h => h⟩

/-! ### What becomes of a slot -/

theorem owner_same (installs : t.installs = s.installs) (si : Nat) : t.owner si = s.owner si := by
  rw [owner, installs, owner]

section Install
variable {offer : UdpOffer} {sender : SockAddr} {si : Nat}

/-- The slot that a handshake is installed in belongs to it. -/
theorem owner_slot (installs : t.installs = ((sessionSlot s.sessions sender).map (·, offer)).toList ++ s.installs)
    (hslot : sessionSlot s.sessions sender = some si) : t.owner si = some offer := by
  rw [owner, installs, hslot, Option.map_some, Option.toList_some, List.singleton_append, List.find?_cons]
  simp

theorem owner_other (installs : t.installs = ((sessionSlot s.sessions sender).map (·, offer)).toList ++ s.installs)
    (hslot : sessionSlot s.sessions sender ≠ some si) : t.owner si = s.owner si := by
  rw [owner, owner, installs]
  cases hs : sessionSlot s.sessions sender with
  | none => rfl
  | some j =>
    have hne : (j == si) = false := beq_eq_false_iff_ne.mpr fun h => hslot (h ▸ hs)
    rw [Option.map_some, Option.toList_some, List.singleton_append, List.find?_cons]
    simp only [hne]

end Install

/-- The clean-up zeroes a session or leaves all but its time. -/
theorem cleanup_cases (keepalive : Int32) (now : Int64) (x : UdpSession) :
    x.cleanup keepalive now = .zeroed ∨ ∃ lastSeen, x.cleanup keepalive now = { x with lastSeen := lastSeen } := by
  unfold UdpSession.cleanup
  split
  · exact .inr ⟨x.lastSeen, rfl⟩
  · obtain ⟨lastSeen, hseen⟩ : ∃ lastSeen,
        (if keepalive > 0 && now - x.lastSeen ≥ keepalive.toInt64 then { x with lastSeen := now } else x) =
          { x with lastSeen := lastSeen } := by
      split
      · exact ⟨now, rfl⟩
      · exact ⟨x.lastSeen, rfl⟩
    dsimp only
    rw [hseen]
    split
    · exact .inl rfl
    · exact .inr ⟨lastSeen, rfl⟩

/-- A live slot after a step was live before with the same keys and address, or has just got the keys of
    the offer that was waiting: in the place of a live session, or in a fresh slot. -/
theorem TableEffect.slot (h : TableEffect b cfg s e t) {si : Nat} {y : UdpSession} (hy : t.sessions[si]? = some y)
    (live : y.active = true) :
    (∃ x, s.sessions[si]? = some x ∧ x.active = true ∧ y.encKey = x.encKey ∧ y.decKey = x.decKey ∧
      y.tunIp = x.tunIp ∧ y.addr.ip = x.addr.ip ∧ t.owner si = s.owner si) ∨
    ∃ offer tunIn d sender now, s.pc = .confirm offer tunIn ∧ e = .await true (.dgram d sender now) ∧
      udpConfirmed b offer.keys.decKey d = true ∧
      (sender, d) ∈ t.received ∧ y.encKey = offer.keys.encKey ∧ y.decKey = offer.keys.decKey ∧ y.addr = sender ∧
      t.owner si = some offer ∧
      ((sessionFind s.sessions sender = some si ∧ ∃ x, s.sessions[si]? = some x ∧ x.active = true ∧ y.tunIp = x.tunIp) ∨
       (sessionFind s.sessions sender = none ∧ si = s.sessions.length ∧ y.tunIp = cfg.tunIpOf offer.peer)) := by
  cases h with
  | same sessions installs =>
    rw [sessions] at hy
    exact .inl ⟨y, hy, live, rfl, rfl, rfl, rfl, owner_same installs si⟩
  | touched i x port lastSeen slot hx sessions installs =>
    have howner : t.owner si = s.owner si := owner_same installs si
    rw [sessions] at hy
    rcases Slots.getElem?_set_cases slot hy with ⟨rfl, rfl⟩ | ⟨-, old⟩
    · exact .inl ⟨x, slot, hx, rfl, rfl, rfl, rfl, howner⟩
    · exact .inl ⟨y, old, live, rfl, rfl, rfl, rfl, howner⟩
  | installed offer tunIn d sender now waiting event confirmed received sessions installs =>
    rw [sessions] at hy
    rcases Slots.getElem?_put hy with ⟨hx, hslot⟩ | ⟨hslot, hwritten⟩
    · exact .inl ⟨y, hx, live, rfl, rfl, rfl, rfl, owner_other installs hslot⟩
    · have howner : t.owner si = some offer := owner_slot installs hslot
      rcases hwritten with ⟨hfind, x, hx, hlive, -, rfl⟩ | ⟨hfind, rfl, rfl⟩
      · exact .inr ⟨offer, tunIn, d, sender, now, waiting, event, confirmed, received, rfl, rfl, rfl, howner,
          .inl ⟨hfind, x, hx, hlive, rfl⟩⟩
      · exact .inr ⟨offer, tunIn, d, sender, now, waiting, event, confirmed, received, rfl, rfl, rfl, howner,
          .inr ⟨hfind, rfl, rfl⟩⟩
  | cleaned now sessions installs =>
    rw [sessions, List.getElem?_map, Option.map_eq_some_iff] at hy
    obtain ⟨x, hx, rfl⟩ := hy
    rcases cleanup_cases cfg.keepalive now x with hz | ⟨lastSeen, hseen⟩
    · rw [hz] at live
      cases live
    · rw [hseen] at live ⊢
      exact .inl ⟨x, hx, live, rfl, rfl, rfl, rfl, owner_same installs si⟩
  | left sessions installs =>
    rw [sessions, List.getElem?_map, Option.map_eq_some_iff] at hy
    obtain ⟨x, -, rfl⟩ := hy
    cases live

/-! ### Runs -/

/-- A run of the server from its start. -/
def Reachable (lib : OpenSsl) (b : Backend) (cfg : UdpConfig) (s : UdpServer) : Prop :=
  Machine.Steps (step lib b cfg) (fun _ _ _ => True) init s

/-- Every live session has the keys of the handshake that was last installed in its slot, and that
    handshake was confirmed by a datagram received. -/
def KeysConfirmed (b : Backend) (s : UdpServer) : Prop :=
  ∀ si x, s.sessions[si]? = some x → x.active = true → ∃ o, s.owner si = some o ∧ x.encKey = o.keys.encKey ∧
    x.decKey = o.keys.decKey ∧ ∃ p ∈ s.received, udpConfirmed b o.keys.decKey p.2 = true

theorem step_keysConfirmed (inv : KeysConfirmed b s) (h : step lib b cfg s e = some t) : KeysConfirmed b t := by
  intro si y hy live
  obtain ⟨htable, hreceived⟩ := step_table h
  rcases htable.slot hy live with ⟨x, hx, hlive, henc, hdec, -, -, howner⟩ |
    ⟨offer, tunIn, d, sender, now, -, -, hconfirmed, hd, henc, hdec, -, howner, -⟩
  · obtain ⟨o, ho, hoenc, hodec, p, hp, hconfirmed⟩ := inv si x hx hlive
    exact ⟨o, howner.trans ho, henc.trans hoenc, hdec.trans hodec, p, hreceived hp, hconfirmed⟩
  · exact ⟨offer, howner, henc, hdec, (sender, d), hd, hconfirmed⟩

theorem Reachable.keysConfirmed (run : Reachable lib b cfg s) : KeysConfirmed b s :=
  run.invariant (fun _ _ h => nomatch h) fun inv h _ => step_keysConfirmed inv h

/-! ### A handshake with the server -/

theorem Reachable.next (run : Reachable lib b cfg s) (h : step lib b cfg s e = some t) : Reachable lib b cfg t :=
  .tail run h trivial

section Joining
variable {tunIn : Bool} {init : Octets} {host : World} {offer : UdpOffer}

/-- A datagram that is admitted and answered. -/
theorem Reachable.waiting (run : Reachable lib b cfg s) (sender : SockAddr) (now : Int64) (place : s.pc = .udp tunIn)
    (hlen : init.length = 60)
    (htype : init.getD 0 0 = frameHandshake) (admitted : (handshakeRateCheck (inetNtop sender.ip) now s.rate).1 = true)
    (answered : (udpTryPeers lib b cfg.asymPriv init 0 (cfg.peers.map (·.pub)) host).1 = some offer) :
    ∃ t, Reachable lib b cfg t ∧ t.pc = .confirm offer tunIn ∧
      t.rate = (handshakeRateCheck (inetNtop sender.ip) now s.rate).2 ∧ t.sessions = s.sessions ∧
      t.installs = s.installs :=
  ⟨_, run.next (step_init [] place hlen htype admitted answered), rfl, rfl, rfl, rfl⟩

/-- Such a datagram, and then the confirmation of its answer. -/
theorem Reachable.joined (run : Reachable lib b cfg s) (sender : SockAddr) (now : Int64) (place : s.pc = .udp tunIn)
    (hlen : init.length = 60)
    (htype : init.getD 0 0 = frameHandshake) (admitted : (handshakeRateCheck (inetNtop sender.ip) now s.rate).1 = true)
    (answered : (udpTryPeers lib b cfg.asymPriv init 0 (cfg.peers.map (·.pub)) host).1 = some offer) :
    ∃ t, Reachable lib b cfg t ∧ t.pc = .udp tunIn ∧ t.rate = (handshakeRateCheck (inetNtop sender.ip) now s.rate).2 ∧
      t.sessions = sessionInstall cfg offer sender now s.sessions ∧
      t.installs = ((sessionSlot s.sessions sender).map (·, offer)).toList ++ s.installs := by
  obtain ⟨t, run', hpc, hrate, hsessions, hinstalls⟩ := run.waiting sender now place hlen htype admitted answered
  have hconfirmed : udpConfirmed b offer.keys.decKey (udpConfirm b offer.keys.decKey) = true := udpConfirmed_udpConfirm
  have hstep := step_confirm lib b cfg (udpConfirm b offer.keys.decKey) sender now hpc
  refine ⟨_, run'.next hstep, ?_⟩
  rw [onConfirm_of_confirmed hconfirmed, hsessions, hinstalls]
  exact ⟨rfl, hrate, rfl, rfl⟩

end Joining

/-- There is a live session with this address and the keys of this offer. -/
def HasSession (s : UdpServer) (addr : SockAddr) (offer : UdpOffer) : Prop :=
  ∃ x ∈ s.sessions, x.active = true ∧ x.addr = addr ∧ x.encKey = offer.keys.encKey ∧ x.decKey = offer.keys.decKey

theorem hasSession_install {offer : UdpOffer} {addr : SockAddr} (now : Int64) (hslot : sessionSlot s.sessions addr ≠ none) :
    ∃ x ∈ sessionInstall cfg offer addr now s.sessions, x.active = true ∧ x.addr = addr ∧
      x.encKey = offer.keys.encKey ∧ x.decKey = offer.keys.decKey := by
  obtain ⟨x, hx, rfl | ⟨y, -, rfl⟩⟩ := Slots.exists_mem_put hslot
  · exact ⟨_, hx, rfl, rfl, rfl, rfl⟩
  · exact ⟨_, hx, rfl, rfl, rfl, rfl⟩

/-- Agreement of the UDP handshake. When the client's first datagram is admitted and the datagrams of both
    sides reach the other one by one, the server matches the first peer with the client's key, the client
    returns 0, the server accepts the confirmation, and their keys are crossed; the client then has a
    session if there is a slot for it. -/
theorem udp_handshake_agreement (lib : OpenSsl) (bc bs : Backend) (cfg : UdpConfig) (client server ce se : KeyPair)
    (tc nc ns ts : Int64) (c : UdpClient) (ws : World) (meet : UdpMeeting lib client server ce se tc nc ns ts c ws)
    (own : cfg.asymPriv = server.priv) (known : client.pub ∈ cfg.peers.map (·.pub))
    (wrongKey : ∀ p ∈ cfg.peers.map (·.pub), p ≠ client.pub → ∀ ee es, ecdhDerive lib ce.priv server.pub = some ee →
      ecdhDerive lib client.priv server.pub = some es →
      UdpWrongKey lib bs server.priv (udpHsBuild bc ce.pub tc (initKey lib ee es)) ee p)
    (toClient : ∀ init offer, (udpHandshakeClient lib bc client.priv server.pub c).2.sent.head? = some init →
      (udpTryPeers lib bs cfg.asymPriv init 0 (cfg.peers.map (·.pub)) ws).1 = some offer →
      ∃ rest, c.dgrams = some offer.resp :: some offer.confirm :: rest) :
    ∃ init confirm offer kc, (udpHandshakeClient lib bc client.priv server.pub c).1 = some kc ∧
      (udpHandshakeClient lib bc client.priv server.pub c).2.sent = [init, confirm] ∧
      IsLeast { j | (cfg.peers.map (·.pub))[j]? = some client.pub } offer.peer ∧
      kc.encKey = offer.keys.decKey ∧ kc.decKey = offer.keys.encKey ∧
      ∀ s tunIn sender now now' writes, s.pc = .udp tunIn →
        (handshakeRateCheck (inetNtop sender.ip) now s.rate).1 = true →
        ∃ s₁ s₂, step lib bs cfg s (.recv true (.dgram init sender) now ws writes) = some s₁ ∧
          s₁.pc = .confirm offer tunIn ∧ udpConfirmed bs offer.keys.decKey confirm = true ∧
          step lib bs cfg s₁ (.await true (.dgram confirm sender now')) = some s₂ ∧
          (sessionSlot s.sessions sender ≠ none → HasSession s₂ sender offer) := by
  rw [own] at toClient
  obtain ⟨init, offer, hinit, hlen, htype, htry, hleast, hclient⟩ := meet.agree bc bs known wrongKey
  obtain ⟨rest, hrest⟩ := toClient init offer hinit htry
  obtain ⟨kc, confirm, hdone, hsent, hconfirmed, henc, hdec⟩ := hclient rest hrest
  refine ⟨init, confirm, offer, kc, hdone, hsent, hleast, henc, hdec, fun s tunIn sender now now' writes place admitted => ?_⟩
  rw [← own] at htry
  refine ⟨_, _, step_init writes place hlen htype admitted htry, rfl, hconfirmed,
    step_confirm lib bs cfg confirm sender now' rfl, fun hslot => ?_⟩
  rw [onConfirm_of_confirmed hconfirmed]
  exact hasSession_install now' hslot

end UdpServer

/-! ### Bob's server -/

def bobConfig : UdpConfig where
  asymPriv := bob.priv
  peers := [⟨carolPub, 0x0a000003⟩, ⟨alice.pub, 0x0a000002⟩]
  keepalive := 0

/-- Alice, at second 1000, with Bob's answers to receive. -/
def aliceClient : UdpClient where
  host := partyWorld alice []
  dgrams := [some (bobOffer 1 aliceBobHash 1000).resp, some (bobOffer 1 aliceBobHash 1000).confirm]
  sends := []
  sent := []

theorem meeting_aliceClient : UdpMeeting udpSsl alice bob alice bob 1000 1000 1000 1000 aliceClient (bobHost 1000) := by
  have agree : Agree udpSsl alice bob := ⟨aliceBob, by decide, by decide⟩
  exact ⟨⟨_, rfl⟩, ⟨_, rfl⟩, ⟨_, rfl⟩, ⟨_, rfl⟩, by decide, by decide, by decide, by decide,
    (fun k hk => nomatch hk), agree, agree, agree, rfl⟩

/-- A client behind the address 198.51.100.1. -/
def natClient (port : UInt16) : SockAddr := ⟨0xc6336401, port⟩

namespace UdpServer

theorem bob_polled : Reachable udpSsl .pureC bobConfig { init with pc := .udp false } :=
  .tail .refl (e := .round true (.ready true false)) rfl trivial

theorem udp_handshake_agreement_alice_bob :
    ∃ s, ∃ offer : UdpOffer, ∃ kc, (udpHandshakeClient udpSsl .pureC alice.priv bob.pub aliceClient).1 = some kc ∧
      IsLeast { j | (bobConfig.peers.map (·.pub))[j]? = some alice.pub } offer.peer ∧
      kc.encKey = offer.keys.decKey ∧ kc.decKey = offer.keys.encKey ∧
      Reachable udpSsl .pureC bobConfig s ∧ HasSession s (natClient 4000) offer := by
  have hinit := meeting_aliceClient.client_init .pureC udpSsl_alice_bob udpSsl_alice_bob
  obtain ⟨init, confirm, offer, kc, hdone, -, hleast, henc, hdec, hserver⟩ := udp_handshake_agreement udpSsl .pureC
    .pureC bobConfig alice bob alice bob 1000 1000 1000 1000 aliceClient (bobHost 1000) meeting_aliceClient rfl
    (by simp [bobConfig])
    (by
      intro p hp hne ee es hee hes
      cases hee.symm.trans udpSsl_alice_bob
      cases hes.symm.trans udpSsl_alice_bob
      rcases List.mem_pair.mp hp with rfl | rfl
      · exact carol_wrongKey
      · exact absurd rfl hne)
    (by
      intro init offer hinit' htry
      cases hinit.symm.trans hinit'
      cases bob_offers_second.symm.trans htry
      exact ⟨[], rfl⟩)
  obtain ⟨s₁, s₂, first, -, -, second, hsession⟩ := hserver
    { UdpServer.init with pc := .udp false } false (natClient 4000) 1000 1000 [] rfl (rateInit_admits ..)
  exact ⟨s₂, offer, kc, hdone, hleast, henc, hdec, (bob_polled.next first).next second, hsession (by decide)⟩

/-- Carol joins at second 1000. -/
theorem carol_joined (port : UInt16) :
    ∃ s, Reachable udpSsl .pureC bobConfig s ∧ s.pc = .udp false ∧
      s.rate = (handshakeRateCheck (inetNtop 0xc6336401) 1000 rateInit).2 ∧
      s.sessions = sessionInstall bobConfig (bobOffer 0 bobCarolHash 1000) (natClient port) 1000 [] ∧
      s.installs = [(0, bobOffer 0 bobCarolHash 1000)] :=
  bob_polled.joined (natClient port) 1000 rfl length_udpHsBuild getD_udpHsBuild
    (rateInit_admits ..) (bob_offers udpSsl_bob_carol (by decide) [alice.pub])

end UdpServer

end AegisTunnel
