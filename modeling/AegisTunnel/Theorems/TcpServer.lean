import AegisTunnel.TcpServer
import AegisTunnel.Theorems.HandshakeServer
import AegisTunnel.Theorems.ModeTunUdp

/-! The TCP servers: what a child makes of a handshake message, that no child sees the messages of another,
    and what has been verified when the data phase begins. -/

namespace AegisTunnel
open Octets

/-! ### Attempts on a connection -/

section Attempts
variable {lib : OpenSsl} {b : Backend} {cfg : TcpConfig}

/-- A child that starts from `w₀` comes to the attempt with the peer `j`, whose key is `p`, in the world `w`,
    and this attempt reads the message `m`. -/
structure Attempt (lib : OpenSsl) (b : Backend) (cfg : TcpConfig) (w₀ : World) (j : Nat) (p : Word 32) (m : Octets)
    (w : World) : Prop where
  peer : cfg.asymPeers[j]? = some p
  before : tryPeers lib b cfg.asymPriv 0 (cfg.asymPeers.take j) w₀ = (none, w)
  reads : Reads w m

/-- `try_handshake_server` returns `j`. -/
def AcceptsAt (lib : OpenSsl) (b : Backend) (cfg : TcpConfig) (w₀ : World) (j : Nat) : Prop :=
  ∃ keys, (tryHandshakeServer lib b cfg.asymPriv cfg.asymPeers w₀).1 = some (j, keys)

theorem Attempt.accepts_iff {w₀ w : World} {j : Nat} {p : Word 32} {m : Octets} (h : Attempt lib b cfg w₀ j p m w) :
    AcceptsAt lib b cfg w₀ j ↔ (handshakeServer lib b cfg.asymPriv p w).1 ≠ none := by
  obtain ⟨hj, hp⟩ := List.getElem?_eq_some_iff.mp h.peer
  have hsplit : cfg.asymPeers = cfg.asymPeers.take j ++ p :: cfg.asymPeers.drop (j + 1) := by
    rw [← hp, ← List.drop_eq_getElem_cons hj, List.take_append_drop]
  have hlen : 0 + (cfg.asymPeers.take j).length = j := by
    rw [List.length_take]
    omega
  have htry : tryHandshakeServer lib b cfg.asymPriv cfg.asymPeers w₀ =
      tryPeers lib b cfg.asymPriv j (p :: cfg.asymPeers.drop (j + 1)) w := by
    rw [tryHandshakeServer]
    nth_rewrite 1 [hsplit]
    rw [tryPeers_append _ h.before, hlen]
  rw [AcceptsAt, htry]
  cases hs : handshakeServer lib b cfg.asymPriv p w with
  | mk o w' =>
    cases o with
    | none =>
      rw [tryPeers, Run.orElse_none (Run.bind_none hs)]
      refine iff_of_false ?_ (not_not.mpr rfl)
      rintro ⟨keys, hkeys⟩
      have := returns_tryPeers (cfg.asymPeers.drop (j + 1)) (j + 1) (j + 1) (le_refl _) w' _ hkeys
      dsimp only at this
      omega
    | some keys =>
      rw [tryPeers_first j _ hs]
      exact iff_of_true ⟨keys, rfl⟩ (Option.some_ne_none keys)

end Attempts

namespace TcpServer
variable {cfg : TcpConfig} {s t : TcpServer} {e : TcpEvent}

/-! ### The parent -/

/-- A run of the server from its start. -/
def Reachable (cfg : TcpConfig) (s : TcpServer) : Prop := Machine.Steps (step cfg) (fun _ _ _ => True) init s

/-- The connection gets a child. -/
structure Admits (cfg : TcpConfig) (s : TcpServer) (conn : TcpConn) : Prop where
  room : s.activeConns < cfg.maxConns
  rate : (s.rateCheck cfg conn).1 = true
  forks : conn.forks = true

theorem children_onAccept {conn : TcpConn} (h : Admits cfg s conn) :
    (s.onAccept cfg conn).children = s.children ++ [⟨{ conn.host with replay := s.replay }, conn.connects⟩] := by
  simp only [onAccept, Int.not_le.mpr h.room, if_false, h.rate, h.forks, Bool.not_true, Bool.or_self, Bool.false_eq_true]

theorem children_onAccept_of_not {conn : TcpConn} (h : ¬ Admits cfg s conn) : (s.onAccept cfg conn).children = s.children := by
  unfold onAccept
  dsimp only
  split
  · rfl
  next hroom =>
    split
    · rfl
    next hgood =>
      simp only [Bool.or_eq_true, Bool.not_eq_true', not_or, Bool.not_eq_false] at hgood
      exact absurd ⟨Int.not_le.mp hroom, hgood.1, hgood.2⟩ h

theorem replay_onAccept (conn : TcpConn) : (s.onAccept cfg conn).replay = s.replay := by
  unfold onAccept
  dsimp only
  split
  · rfl
  · split <;> rfl

/-- The parent never writes its replay cache, and each child starts with a copy of it. -/
def CacheUnwritten (s : TcpServer) : Prop := s.replay = replayInit ∧ ∀ c ∈ s.children, c.start.replay = replayInit

theorem onAccept_cacheUnwritten (conn : TcpConn) (inv : CacheUnwritten s) : CacheUnwritten (s.onAccept cfg conn) := by
  refine ⟨(replay_onAccept conn).trans inv.1, fun c hc => ?_⟩
  by_cases admits : Admits cfg s conn
  · rw [children_onAccept admits, List.mem_append, List.mem_singleton] at hc
    rcases hc with hc | rfl
    · exact inv.2 c hc
    · exact inv.1
  · rw [children_onAccept_of_not admits] at hc
    exact inv.2 c hc

theorem step_cacheUnwritten (inv : CacheUnwritten s) (h : step cfg s e = some t) : CacheUnwritten t := by
  cases e with
  | stop =>
    obtain ⟨-, h⟩ := Option.ite_none_right_eq_some.mp h
    cases h
    exact inv
  | acceptFailed eintr =>
    simp only [step] at h
    split at h
    · cases h
    · split at h <;> cases h <;> exact inv
  | accept conn =>
    obtain ⟨-, h⟩ := Option.ite_none_right_eq_some.mp h
    cases h
    exact onAccept_cacheUnwritten conn inv
  | sigchld =>
    obtain ⟨-, h⟩ := Option.ite_none_right_eq_some.mp h
    cases h
    exact inv

theorem Reachable.cacheUnwritten (run : Reachable cfg s) : CacheUnwritten s :=
  Machine.Steps.invariant run ⟨rfl, List.forall_mem_nil _⟩ fun inv h _ => step_cacheUnwritten inv h

theorem step_accept {conn : TcpConn} (h : step cfg s (.accept conn) = some t) : t = s.onAccept cfg conn := by
  obtain ⟨-, h⟩ := Option.ite_none_right_eq_some.mp h
  exact (Option.some.inj h).symm

/-! ### Replay -/

theorem ephOf_asymWire (b : Backend) (epk : Word 32) (ts : Int64) (key : Block) : ephOf (asymWire b epk ts key) = epk := by
  rw [ephOf, asymWire_eq, List.take_left' (by simp [asymHeader]), List.drop_left' (by rfl), load_toList]

/-- The key of the client's secrets opens the client's message. -/
theorem opened_asymWire {lib : OpenSsl} {k p epk ee es : Word 32} (b b' : Backend) (ts : Int64)
    (hee : ecdhDerive lib k epk = some ee) (hes : ecdhDerive lib k p = some es) (stack : List (Word 32)) :
    opened lib b k p (asymWire b' epk ts (initKey lib ee es)) stack = some ts := by
  have hct : (aegisPureEncrypt (tsBytes ts) (asymHeader ++ epk.toList) (Word.zero 16) (initKey lib ee es)).1.length = 8 := by
    rw [length_aegisPureEncrypt, length_tsBytes]
  have hdrop : (asymWire b' epk ts (initKey lib ee es)).drop 36 = asymBody b' epk ts (initKey lib ee es) := by
    rw [asymWire_eq, List.drop_left' (by simp [asymHeader])]
  simp only [opened, derived, ephOf_asymWire, hee, hes, hdrop, asymBody, aegisEncrypt_eq, aegisDecrypt_eq]
  rw [List.take_left' hct, List.drop_left' hct, load_toList, aegisPureDecrypt_encrypt]
  simp [bytesTs_tsBytes]

/-- Where X25519 gives its secrets, a message is opened or not whatever the buffers held. -/
theorem opened_of_derive {lib : OpenSsl} {k p : Word 32} {m : Octets} (b : Backend) (heph : ecdhDerive lib k (ephOf m) ≠ none)
    (hp : ecdhDerive lib k p ≠ none) (stack stack' : List (Word 32)) :
    opened lib b k p m stack = opened lib b k p m stack' := by
  obtain ⟨ee, hee⟩ := Option.ne_none_iff_exists'.mp heph
  obtain ⟨es, hes⟩ := Option.ne_none_iff_exists'.mp hp
  simp only [opened, derived, hee, hes]

/-- A message that was accepted on one connection, on a later one: it is rejected there exactly if the
    connection gets no child, the key for the attempt's peer does not open it, it has been read on the
    same connection before, or the answer fails. The child starts from the cache that the child before
    started from, without its entry, and the key of the same peer opens the message again. -/
theorem replayed_init_rejected_iff (lib : OpenSsl) (b : Backend) (cfg : TcpConfig) (s s' t : TcpServer) (c : TcpChild)
    (conn : TcpConn) (i j : Nat) (p p' : Word 32) (m : Octets) (w w' : World) (run : Reachable cfg s) (hc : c ∈ s.children)
    (first : Attempt lib b cfg c.start i p m w) (accepted : AcceptsAt lib b cfg c.start i)
    (later : Machine.Steps (step cfg) (fun _ _ _ => True) s s') (h : step cfg s' (.accept conn) = some t)
    (again : Attempt lib b cfg { conn.host with replay := s'.replay } j p' m w')
    (window : ∀ ts, opened lib b cfg.asymPriv p' m w'.stack = some ts → Within ts w'.clock) :
    ((∀ c' ∈ t.children.drop s'.children.length, ¬ AcceptsAt lib b cfg c'.start j) ↔
      ¬ Admits cfg s' conn ∨ opened lib b cfg.asymPriv p' m w'.stack = none ∨
        (∃ ts, opened lib b cfg.asymPriv p' m w'.stack = some ts ∧ isReplayIn w'.replay ts (ephOf m) = true) ∨ ¬ Served w') ∧
    s'.replay = c.start.replay ∧
    (p' = p → ecdhDerive lib cfg.asymPriv (ephOf m) ≠ none → ecdhDerive lib cfg.asymPriv p ≠ none →
      opened lib b cfg.asymPriv p' m w'.stack ≠ none) := by
  have unwritten : CacheUnwritten s' := Reachable.cacheUnwritten (run.append later)
  refine ⟨?_, unwritten.1.trans (run.cacheUnwritten.2 c hc).symm, ?_⟩
  · rw [step_accept h, ← handshakeServer_none_iff again.reads window]
    by_cases admits : Admits cfg s' conn
    · rw [children_onAccept admits, List.drop_left]
      simp only [List.mem_singleton, forall_eq, admits, not_true_eq_false, false_or]
      rw [again.accepts_iff, not_not]
    · rw [children_onAccept_of_not admits, List.drop_length]
      exact iff_of_true (fun c' hc' => nomatch hc') (.inl admits)
  · rintro rfl heph hp hnone
    rw [opened_of_derive b heph hp w'.stack w.stack] at hnone
    exact first.accepts_iff.mp accepted ((handshakeServer_reads lib b cfg.asymPriv p' first.reads).1 hnone)

/-! ### The data phase -/

theorem returns_recvConnectReq (b : Backend) (decKey : Block) :
    Run.Returns (fun r => ∃ f, frameParse b r.1 1 decKey = .ok f) (recvConnectReq b decKey) := by
  refine Run.returns_bind fun hdr => ?_
  dsimp only
  split
  · exact Run.returns_fail
  · refine Run.returns_bind fun body => ?_
    split
    next f hf =>
      split
      · exact Run.returns_pure ⟨f, hf⟩
      · exact Run.returns_fail
    next => exact Run.returns_fail

/-- A frame that was received and verified under the key that the tunnel decrypts with. -/
def DataPhase.Confirmed (b : Backend) (d : DataPhase) : Prop := ∃ wb ∈ d.verified, ∃ f, frameParse b wb 1 d.tunnel.decKey = .ok f

/-- A child verifies a frame before the data phase if it is one of the SOCKS5 server, and else none. -/
theorem returns_tcpChild (lib : OpenSsl) (b : Backend) (cfg : TcpConfig) (connects : Bool) :
    Run.Returns (fun d => DataPhase.Confirmed b d ↔ cfg.mode = .socks5) (tcpChild lib b cfg connects) := by
  have unverified : ∀ (peer : Nat) (tunnel : Tun), cfg.mode ≠ .socks5 →
      (DataPhase.Confirmed b ⟨peer, tunnel, []⟩ ↔ cfg.mode = .socks5) := by
    intro peer tunnel hmode
    refine iff_of_false ?_ hmode
    rintro ⟨wb, hwb, -⟩
    cases hwb
  refine Run.returns_bind fun ⟨peer, keys⟩ => Run.returns_bind fun _ => ?_
  dsimp only
  split
  next hmode =>
    split
    · exact Run.returns_pure (unverified _ _ (by rw [hmode]; exact TcpMode.noConfusion))
    · exact Run.returns_fail
  next hmode => exact Run.returns_pure (unverified _ _ (by rw [hmode]; exact TcpMode.noConfusion))
  next hmode =>
    refine Run.returns_bind_of (returns_recvConnectReq b keys.decKey) fun ⟨wb, req⟩ hwb => ?_
    dsimp only
    split
    · exact Run.returns_pure (iff_of_true ⟨wb, List.mem_singleton_self _, hwb⟩ hmode)
    · exact Run.returns_fail

/-- Key confirmation. A child of a TCP server that begins the data phase has verified a frame under its
    session key exactly if it is a child of the SOCKS5 server; the UDP server has done so for each of its
    live sessions. -/
theorem data_phase_confirmed_iff (lib : OpenSsl) (b : Backend) :
    (∀ cfg s c d, Reachable cfg s → c ∈ s.children → (tcpChild lib b cfg c.connects c.start).1 = some d →
      (DataPhase.Confirmed b d ↔ cfg.mode = .socks5)) ∧
    (∀ cfg s, UdpServer.Reachable lib b cfg s → UdpServer.KeysConfirmed b s) :=
  ⟨fun cfg _ c d _ _ h => returns_tcpChild lib b cfg c.connects c.start d h, fun _ _ run => run.keysConfirmed⟩

/-! ### A recorded message

Alice connects to Bob, and then someone else sends Bob what she has sent. -/

def bobTun : TcpConfig where
  mode := .tun
  asymPriv := bob.priv
  asymPeers := [alice.pub]
  maxConns := 64
  keepalive := 0

/-- A connection at the second `now` that brings Alice's message and nothing else. -/
def initConn (now : Int64) : TcpConn where
  ip := 0xc6336401
  now := now
  forks := true
  host := { partyWorld bob (byteByByte (aliceInit aliceBobSsl)) with clock := [now, now] }
  connects := true

theorem initConn_arriving (now : Int64) : arriving (initConn now).host.inbox = some (aliceInit aliceBobSsl) :=
  arriving_byteByByte (aliceInit aliceBobSsl)

theorem initConn_arriving_nil (now : Int64) : arriving (initConn now).host.inbox = some (aliceInit aliceBobSsl ++ []) := by
  rw [List.append_nil]
  exact initConn_arriving now

theorem initConn_attempt (now : Int64) :
    Attempt aliceBobSsl .pureC bobTun (initConn now).host 0 alice.pub (aliceInit aliceBobSsl) (initConn now).host :=
  ⟨rfl, rfl, reads_of_arriving (length_asymWire ..) (initConn_arriving_nil now)⟩

/-- Within the window of Alice's message, Bob takes it and comes to the data phase. -/
theorem initConn_served (now : Int64) (hnow : 0 ≤ now) (hwindow : |now.toInt - 1000| ≤ 60) :
    AcceptsAt aliceBobSsl .pureC bobTun (initConn now).host 0 ∧
      ∃ d, (tcpChild aliceBobSsl .pureC bobTun true (initConn now).host).1 = some d ∧ d.verified = [] := by
  have hderive : ecdhDerive aliceBobSsl bob.priv alice.pub = some aliceBobHash := by decide
  have hnew : isReplayIn replayInit 1000 alice.pub = false := by decide
  obtain ⟨w', hserver, -, hsends⟩ := handshakeServer_arriving (b := .pureC) (initConn_arriving_nil now)
    (.of_derive hderive _) (.of_derive hderive _) (.of_derive hderive _) rfl rfl hnow hnow hwindow hnew (fun k hk => nomatch hk)
  generalize SessionKeys.mk _ _ = keys at hserver
  have htry : tryHandshakeServer aliceBobSsl .pureC bobTun.asymPriv bobTun.asymPeers (initConn now).host =
      (some (0, keys), w') := tryPeers_first 0 [] hserver
  obtain ⟨w'', wire, hconfirm, -, -⟩ := handshakeKeyConfirmServer_takes (b := .pureC) keys hsends
  refine ⟨⟨keys, congrArg Prod.fst htry⟩, ⟨0, Mode.server.tun keys 0, []⟩, ?_, rfl⟩
  rw [tcpChild, Run.bind_some htry]
  dsimp only
  rw [Run.bind_some hconfirm]
  rfl

theorem initConn_admitted {now : Int64} (hs : s.activeConns < 64) : Admits bobTun s (initConn now) := ⟨hs, rfl, rfl⟩

/-- After Alice's connection at second 1000. -/
theorem alice_connected :
    ∃ s, Reachable bobTun s ∧ s.listening = true ∧ s.activeConns = 1 ∧ s.children = [⟨(initConn 1000).host, true⟩] := by
  have hstep : step bobTun init (.accept (initConn 1000)) = some (init.onAccept bobTun (initConn 1000)) := rfl
  exact ⟨_, .tail .refl hstep trivial, rfl, rfl, rfl⟩

/-- Then the connection at second 1030 that repeats her message. -/
theorem init_repeated :
    ∃ s t c c', Reachable bobTun s ∧ s.children = [c] ∧ c = ⟨(initConn 1000).host, true⟩ ∧
      step bobTun s (.accept (initConn 1030)) = some t ∧ t.children = [c, c'] ∧ c' = ⟨(initConn 1030).host, true⟩ := by
  obtain ⟨s, run, hlistening, hactive, hchildren⟩ := alice_connected
  have hstep : step bobTun s (.accept (initConn 1030)) = some (s.onAccept bobTun (initConn 1030)) := by
    simp only [step, hlistening, if_true]
  refine ⟨s, _, _, ⟨(initConn 1030).host, true⟩, run, hchildren, rfl, hstep, ?_, rfl⟩
  rw [children_onAccept (initConn_admitted (by omega)), hchildren, run.cacheUnwritten.1]
  rfl

/-- Alice's message is accepted twice within its window. -/
theorem replayed_init_accepted :
    ∃ s t c c', Reachable bobTun s ∧ c ∈ s.children ∧
      Attempt aliceBobSsl .pureC bobTun c.start 0 alice.pub (aliceInit aliceBobSsl) c.start ∧
      AcceptsAt aliceBobSsl .pureC bobTun c.start 0 ∧
      step bobTun s (.accept (initConn 1030)) = some t ∧ c' ∈ t.children.drop s.children.length ∧
      Attempt aliceBobSsl .pureC bobTun c'.start 0 alice.pub (aliceInit aliceBobSsl) c'.start ∧
      Within 1000 c'.start.clock ∧ AcceptsAt aliceBobSsl .pureC bobTun c'.start 0 := by
  obtain ⟨s, t, c, c', run, hs, rfl, hstep, ht, rfl⟩ := init_repeated
  refine ⟨s, t, ⟨(initConn 1000).host, true⟩, ⟨(initConn 1030).host, true⟩, run, ?_, initConn_attempt 1000,
    (initConn_served 1000 (by decide) (by decide)).1, hstep, ?_, initConn_attempt 1030, ⟨1030, _, rfl, by decide, by decide⟩,
    (initConn_served 1030 (by decide) (by decide)).1⟩
  · rw [hs]
    exact List.mem_singleton_self _
  · rw [hs, ht]
    exact List.mem_singleton_self _

/-- Whoever has recorded Alice's message gets Bob to the data phase with it, without any frame. -/
theorem recorded_init_enters_tunnel :
    ∃ s c d, Reachable bobTun s ∧ c ∈ s.children ∧ arriving c.start.inbox = some (aliceInit aliceBobSsl) ∧
      (tcpChild aliceBobSsl .pureC bobTun c.connects c.start).1 = some d ∧ d.verified = [] ∧ ¬ DataPhase.Confirmed .pureC d := by
  obtain ⟨s, t, c, c', run, -, -, hstep, ht, rfl⟩ := init_repeated
  obtain ⟨-, d, hd, hverified⟩ := initConn_served 1030 (by decide) (by decide)
  refine ⟨t, ⟨(initConn 1030).host, true⟩, d, .tail run hstep trivial, ?_, initConn_arriving 1030, hd, hverified, ?_⟩
  · rw [ht]
    exact List.mem_cons_of_mem _ (List.mem_singleton_self _)
  · rintro ⟨wb, hwb, -⟩
    rw [hverified] at hwb
    cases hwb

theorem data_phase_confirmed_iff_alice_carol :
    (∃ s c d, Reachable bobTun s ∧ c ∈ s.children ∧ (tcpChild aliceBobSsl .pureC bobTun c.connects c.start).1 = some d ∧
      (DataPhase.Confirmed .pureC d ↔ bobTun.mode = .socks5)) ∧
    ∃ s, UdpServer.Reachable udpSsl .pureC bobConfig s ∧ s.sessions ≠ [] ∧ UdpServer.KeysConfirmed .pureC s := by
  obtain ⟨s, t, c, c', run, hs, rfl, -⟩ := init_repeated
  have hc : ⟨(initConn 1000).host, true⟩ ∈ s.children := by
    rw [hs]
    exact List.mem_singleton_self _
  obtain ⟨-, d, hd, -⟩ := initConn_served 1000 (by decide) (by decide)
  obtain ⟨u, joined, -, -, hsessions, -⟩ := UdpServer.carol_joined 4000
  refine ⟨⟨s, _, d, run, hc, hd, (data_phase_confirmed_iff aliceBobSsl .pureC).1 bobTun s _ d run hc hd⟩,
    u, joined, ?_, (data_phase_confirmed_iff udpSsl .pureC).2 bobConfig u joined⟩
  rw [hsessions]
  exact fun h => nomatch h

theorem replayed_init_rejected_iff_alice :
    ∃ s t c, Reachable bobTun s ∧ c ∈ s.children ∧ AcceptsAt aliceBobSsl .pureC bobTun c.start 0 ∧
      step bobTun s (.accept (initConn 1030)) = some t ∧
      ((∀ c' ∈ t.children.drop s.children.length, ¬ AcceptsAt aliceBobSsl .pureC bobTun c'.start 0) ↔
        ¬ Admits bobTun s (initConn 1030) ∨ opened aliceBobSsl .pureC bob.priv alice.pub (aliceInit aliceBobSsl) [] = none ∨
          (∃ ts, opened aliceBobSsl .pureC bob.priv alice.pub (aliceInit aliceBobSsl) [] = some ts ∧
            isReplayIn replayInit ts (ephOf (aliceInit aliceBobSsl)) = true) ∨ ¬ Served (initConn 1030).host) := by
  obtain ⟨s, t, c, c', run, hs, rfl, hstep, -, -⟩ := init_repeated
  have hc : ⟨(initConn 1000).host, true⟩ ∈ s.children := by
    rw [hs]
    exact List.mem_singleton_self _
  have haccepts := (initConn_served 1000 (by decide) (by decide)).1
  have hagain : Attempt aliceBobSsl .pureC bobTun { (initConn 1030).host with replay := s.replay } 0 alice.pub
      (aliceInit aliceBobSsl) (initConn 1030).host := by
    rw [run.cacheUnwritten.1]
    exact initConn_attempt 1030
  refine ⟨s, t, _, run, hc, haccepts, hstep, (replayed_init_rejected_iff aliceBobSsl .pureC bobTun s s t _ (initConn 1030)
    0 0 alice.pub alice.pub (aliceInit aliceBobSsl) _ _ run hc (initConn_attempt 1000) haccepts .refl hstep hagain ?_).1⟩
  intro ts hts
  have hderive : ecdhDerive aliceBobSsl bob.priv alice.pub = some aliceBobHash := by decide
  cases hts.symm.trans (opened_asymWire .pureC .pureC 1000 hderive hderive [])
  exact ⟨1030, [1030], rfl, by decide, by decide⟩

end TcpServer

end AegisTunnel
