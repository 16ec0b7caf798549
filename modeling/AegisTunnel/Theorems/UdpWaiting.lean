import AegisTunnel.Theorems.UdpSessions

/-! The wait for a confirmation among the traffic of other clients. The wait takes the next datagram of
    the socket, whoever has sent it: the handshake is then over, and that datagram is lost. -/

namespace AegisTunnel
open Octets

/-- The end of the server, or an error of `poll` or `recvfrom`, in the wait for a confirmation. -/
def UdpEvent.Disturbs : UdpEvent → Prop
  | .await false _ => True
  | .await true .pollError => True
  | .await true .error => True
  | _ => False

/-- What `write` answers in a round. -/
def UdpEvent.writes : UdpEvent → List Sent
  | .recv _ _ _ _ writes => writes
  | _ => []

namespace UdpServer
variable {lib : OpenSsl} {b : Backend} {cfg : UdpConfig} {s t u : UdpServer} {e : UdpEvent}

/-- A step among other clients' traffic: no datagram confirms the keys with the decryption key `k`, and no
    handshake that is answered derives it again. -/
structure Others (b : Backend) (k : Block) (s : UdpServer) (e : UdpEvent) (t : UdpServer) : Prop where
  calm : ¬ e.Disturbs
  foreign : ∀ d sender, e.datagram = some (d, sender) → udpConfirmed b k d = false
  fresh : ∀ o tunIn, t.pc = .confirm o tunIn → s.pc ≠ .confirm o tunIn → o.keys.decKey ≠ k

/-- A datagram that is an authentic packet of a live session has the packet written to the device, if
    the device takes packets whole. -/
def DataWritten (b : Backend) (s : UdpServer) (e : UdpEvent) (t : UdpServer) : Prop :=
  ∀ d sender si x f, e.datagram = some (d, sender) → sessionFind s.sessions sender = some si →
    s.sessions[si]? = some x → frameParseExplicit b (d.take udpMaxDgram) x.decKey = .ok f → f.type = frameData →
    f.payload ≠ [] → (∀ k ∈ e.writes, ∃ n, k = .took n ∧ frameMaxPayload ≤ n) → t.wrote = s.wrote ++ [f.payload]

/-! ### One wait -/

theorem step_waiting {offer : UdpOffer} {tunIn : Bool} (waiting : s.pc = .confirm offer tunIn)
    (h : step lib b cfg s e = some t) (calm : ¬ e.Disturbs) :
    (e.datagram = none ∧ t = s) ∨
    ∃ d sender now, e = .await true (.dgram d sender now) ∧ t = s.onConfirm b cfg offer tunIn d sender now := by
  cases e with
  | await running answer =>
    cases running with
    | false => exact absurd trivial calm
    | true =>
      simp only [step, waiting, Bool.not_true, Bool.false_eq_true, if_false] at h
      cases answer with
      | pollEintr => cases h; exact .inl ⟨rfl, rfl⟩
      | timeout => cases h; exact .inl ⟨rfl, rfl⟩
      | pollError => exact absurd trivial calm
      | error => exact absurd trivial calm
      | dgram d sender now => cases h; exact .inr ⟨d, sender, now, rfl, rfl⟩
  | round running answer => simp [step, waiting] at h
  | recv running answer now host writes => simp [step, waiting] at h
  | read running answer draws => simp [step, waiting] at h
  | cleanup now draws => simp [step, waiting] at h

theorem UdpEvent.calm_of_datagram {p : Octets × SockAddr} (h : e.datagram = some p) : ¬ e.Disturbs := by
  intro disturbs
  unfold UdpEvent.Disturbs at disturbs
  split at disturbs
  · cases h
  · cases h
  · cases h
  · exact disturbs

/-- Nothing is left of the keys with the decryption key `k`. -/
structure Lost (k : Block) (s : UdpServer) : Prop where
  sessions : ∀ x ∈ s.sessions, x.active = true → x.decKey ≠ k
  offer : ∀ o tunIn, s.pc = .confirm o tunIn → o.keys.decKey ≠ k

theorem lost_sessions {k : Block} (lost : Lost k s) (h : step lib b cfg s e = some t) :
    ∀ x ∈ t.sessions, x.active = true → x.decKey ≠ k := by
  intro y hy live
  obtain ⟨si, hsi⟩ := List.getElem?_of_mem hy
  rcases (step_table h).1.slot hsi live with ⟨x, hx, hlive, -, hdec, -⟩ |
    ⟨offer, tunIn, d, sender, now, waiting, -, -, -, -, hdec, -⟩
  · rw [hdec]
    exact lost.sessions x (List.mem_of_getElem? hx) hlive
  · rw [hdec]
    exact lost.offer offer tunIn waiting

theorem step_lost {k : Block} (lost : Lost k s) (h : step lib b cfg s e = some t) (others : Others b k s e t) :
    Lost k t := by
  refine ⟨lost_sessions lost h, fun o tunIn hpc => ?_⟩
  by_cases hs : s.pc = .confirm o tunIn
  · exact lost.offer o tunIn hs
  · exact others.fresh o tunIn hpc hs

/-- The first datagram of another client ends the wait, and the keys are lost. -/
theorem onConfirm_lost (cfg : UdpConfig) {offer : UdpOffer} {d : Octets} (tunIn : Bool) (sender : SockAddr) (now : Int64)
    (foreign : udpConfirmed b offer.keys.decKey d = false)
    (hnew : ∀ x ∈ s.sessions, x.active = true → x.decKey ≠ offer.keys.decKey) :
    Lost offer.keys.decKey (s.onConfirm b cfg offer tunIn d sender now) := by
  rw [onConfirm_of_not foreign]
  exact ⟨hnew, fun o tunIn h => nomatch h⟩

/-- While a handshake waits among other traffic, either nothing has arrived and nothing has changed, or
    its keys are lost. -/
theorem trace_waiting {offer : UdpOffer} {tunIn : Bool} {evs : List UdpEvent}
    (run : Machine.Trace (step lib b cfg) (Others b offer.keys.decKey) s evs t) (waiting : s.pc = .confirm offer tunIn)
    (hnew : ∀ x ∈ s.sessions, x.active = true → x.decKey ≠ offer.keys.decKey) :
    ((∀ e ∈ evs, e.datagram = none) ∧ t = s) ∨ ((∃ e ∈ evs, e.datagram ≠ none) ∧ Lost offer.keys.decKey t) := by
  induction run with
  | nil => exact .inl ⟨List.forall_mem_nil _, rfl⟩
  | @cons s t u e evs taken good rest ih =>
    rcases step_waiting waiting taken good.calm with ⟨quiet, rfl⟩ | ⟨d, sender, now, rfl, rfl⟩
    · rcases ih waiting hnew with ⟨hquiet, rfl⟩ | ⟨⟨e', he', hd⟩, lost⟩
      · exact .inl ⟨List.forall_mem_cons.mpr ⟨quiet, hquiet⟩, rfl⟩
      · exact .inr ⟨⟨e', List.mem_cons_of_mem _ he', hd⟩, lost⟩
    · have lost := onConfirm_lost cfg tunIn sender now (good.foreign d sender rfl) hnew
      refine .inr ⟨⟨_, List.mem_cons_self .., fun h => nomatch h⟩, ?_⟩
      exact rest.steps.invariant lost fun inv h others => step_lost inv h others

/-! ### Packets of the other sessions -/

theorem tunWrite_takes {pkt : Octets} {writes : List Sent} (hlen : pkt.length ≤ frameMaxPayload)
    (h : ∀ k ∈ writes, ∃ n, k = .took n ∧ frameMaxPayload ≤ n) : tunWrite pkt writes = [pkt] := by
  cases writes with
  | nil => rfl
  | cons k ks =>
    obtain ⟨n, rfl, hn⟩ := h k (List.mem_cons_self ..)
    have htake : pkt.take n = pkt := List.take_of_length_le (hlen.trans hn)
    have hdrop : pkt.drop n = [] := List.drop_of_length_le (hlen.trans hn)
    rw [tunWrite, htake, hdrop]
    cases ks <;> rfl

theorem not_isHandshake {d : Octets} {k : Block} {f : Frame} (hf : frameParseExplicit b (d.take udpMaxDgram) k = .ok f)
    (hdata : f.type = frameData) : ¬ IsHandshake d := by
  rintro ⟨-, handshake⟩
  rw [← frameParseExplicit_type hf, hdata] at handshake
  exact absurd handshake (by decide)

/-- Outside a wait, an authentic packet of a live session is written. -/
theorem DatagramEffect.written {tunIn : Bool} {d : Octets} {sender : SockAddr} {now : Int64} {writes : List Sent} {si : Nat}
    {x : UdpSession} {f : Frame} (h : DatagramEffect lib b cfg s tunIn d sender now writes t)
    (hfind : sessionFind s.sessions sender = some si) (hx : s.sessions[si]? = some x)
    (hf : frameParseExplicit b (d.take udpMaxDgram) x.decKey = .ok f) (hdata : f.type = frameData) (hne : f.payload ≠ [])
    (takes : ∀ k ∈ writes, ∃ n, k = .took n ∧ frameMaxPayload ≤ n) : t.wrote = s.wrote ++ [f.payload] := by
  have hbranch := not_isHandshake hf hdata
  rcases h with ⟨rate, handshake, -⟩ | ⟨rate, offer, host, handshake, -⟩ | ⟨-, hnone, -⟩ |
    ⟨si', x', -, hfind', hx', -, hno, -⟩ | ⟨si', x', f', -, hfind', hx', -, hf', rfl⟩
  · exact absurd handshake hbranch
  · exact absurd handshake hbranch
  · cases hnone.symm.trans hfind
  · cases hfind.symm.trans hfind'
    cases hx.symm.trans hx'
    exact absurd hf (hno f)
  · cases hfind.symm.trans hfind'
    cases hx.symm.trans hx'
    cases hf.symm.trans hf'
    obtain ⟨r, hbuild⟩ := frameBuildExplicit_of_frameParseExplicit (b := b) hf
    dsimp only
    rw [if_pos ⟨hdata, hne⟩, tunWrite_takes (length_frameBuildExplicit hbuild).1 takes]

theorem onConfirm_wrote (b : Backend) (cfg : UdpConfig) (offer : UdpOffer) (tunIn : Bool) (d : Octets) (sender : SockAddr)
    (now : Int64) (s : UdpServer) : (s.onConfirm b cfg offer tunIn d sender now).wrote = s.wrote := by
  unfold onConfirm
  dsimp only
  split <;> rfl

/-- An authentic packet of a live session is written exactly when the server is not waiting for a
    confirmation. -/
theorem written_iff {d : Octets} {sender : SockAddr} {si : Nat} {x : UdpSession} {f : Frame}
    (h : step lib b cfg s e = some t) (received : e.datagram = some (d, sender))
    (hfind : sessionFind s.sessions sender = some si) (hx : s.sessions[si]? = some x)
    (hf : frameParseExplicit b (d.take udpMaxDgram) x.decKey = .ok f) (hdata : f.type = frameData) (hne : f.payload ≠ [])
    (takes : ∀ k ∈ e.writes, ∃ n, k = .took n ∧ frameMaxPayload ≤ n) :
    t.wrote = s.wrote ++ [f.payload] ↔ ∀ offer tunIn, s.pc ≠ .confirm offer tunIn := by
  obtain ⟨pc, -, quiet, -⟩ | ⟨quiet, -⟩ | ⟨tunIn, d', sender', now, host, writes, place, rfl, rfl⟩ |
    ⟨offer, tunIn, d', sender', now, place, rfl, rfl⟩ | ⟨pkt, draws, -, rfl, -⟩ | ⟨now, draws, -, rfl, -⟩ := step_effect h
  · cases quiet.symm.trans received
  · cases quiet.symm.trans received
  · cases received
    refine iff_of_true ((onDatagram_effect ..).written hfind hx hf hdata hne takes) fun offer tunIn' hpc => ?_
    cases place.symm.trans hpc
  · cases received
    refine iff_of_false ?_ fun hnot => hnot offer tunIn place
    rw [onConfirm_wrote]
    simp
  · cases received
  · cases received

/-- Handshakes among other traffic. Client A's first datagram has been answered with `offer`; then come any
    events, with datagrams of other clients only; then comes A's confirmation. A ends with a session and
    every authentic packet of the others is written exactly when none of the events brought a datagram and
    there is a slot for A. A datagram of the others that comes while the server waits is never written. -/
theorem handshake_among_others_iff (lib : OpenSsl) (b : Backend) (cfg : UdpConfig) (s t u : UdpServer) (offer : UdpOffer)
    (tunIn : Bool) (evs : List UdpEvent) (e : UdpEvent) (confirm : Octets) (addr : SockAddr)
    (answered : s.pc = .confirm offer tunIn)
    (hnew : ∀ x ∈ s.sessions, x.active = true → x.decKey ≠ offer.keys.decKey)
    (others : Machine.Trace (step lib b cfg) (Others b offer.keys.decKey) s evs t)
    (delivered : step lib b cfg t e = some u) (hconfirm : e.datagram = some (confirm, addr))
    (hconfirmed : udpConfirmed b offer.keys.decKey confirm = true) :
    ((HasSession u addr offer ∧ Machine.Trace (step lib b cfg) (DataWritten b) s evs t) ↔
      (∀ e ∈ evs, e.datagram = none) ∧
        ((∃ x ∈ s.sessions, x.active = true ∧ x.addr.ip = addr.ip) ∨ s.sessions.length < udpMaxClients)) ∧
    (∀ s e t d sender si x f, step lib b cfg s e = some t → e.datagram = some (d, sender) →
      sessionFind s.sessions sender = some si → s.sessions[si]? = some x →
      frameParseExplicit b (d.take udpMaxDgram) x.decKey = .ok f → f.type = frameData → f.payload ≠ [] →
      (∀ k ∈ e.writes, ∃ n, k = .took n ∧ frameMaxPayload ≤ n) →
      (t.wrote = s.wrote ++ [f.payload] ↔ ∀ offer tunIn, s.pc ≠ .confirm offer tunIn)) := by
  refine ⟨?_, fun s e t d sender si x f h received hfind hx hf => written_iff h received hfind hx hf⟩
  rcases trace_waiting others answered hnew with ⟨hquiet, rfl⟩ | ⟨⟨e', he', hd⟩, lost⟩
  · -- Nothing has come: A's confirmation is the datagram that the wait takes.
    rcases step_waiting answered delivered (UdpEvent.calm_of_datagram hconfirm) with ⟨quiet, -⟩ | ⟨d, sender, now, rfl, rfl⟩
    · cases quiet.symm.trans hconfirm
    cases hconfirm
    rw [hasSession_onConfirm_iff tunIn addr now hconfirmed, and_iff_right hquiet, and_iff_left]
    exact others.imp fun he _ d sender si x f received => by cases (hquiet _ he).symm.trans received
  · refine iff_of_false ?_ fun h => hd (h.1 e' he')
    rintro ⟨⟨x, hx, live, -, -, hdec⟩, -⟩
    exact lost_sessions lost delivered x hx live hdec

/-- Bob has answered Carol's first datagram and waits. -/
theorem bob_waits :
    ∃ s, Reachable udpSsl .pureC bobConfig s ∧ s.pc = .confirm (bobOffer 0 bobCarolHash 1000) false ∧ s.sessions = [] := by
  obtain ⟨s, run, hpc, -, hsessions, -⟩ := bob_polled.waiting (natClient 4000) 1000 rfl length_udpHsBuild
    getD_udpHsBuild (rateInit_admits ..)
    (bob_offers udpSsl_bob_carol (by decide : (0 : Int64) ≤ 1000) [alice.pub])
  exact ⟨s, run, hpc, hsessions⟩

/-- Alice's first datagram comes between Carol's first one and her confirmation. -/
theorem bob_interrupted :
    ∃ s t u, ∃ init confirm : Octets, Reachable udpSsl .pureC bobConfig s ∧
      s.pc = .confirm (bobOffer 0 bobCarolHash 1000) false ∧ s.sessions = [] ∧
      Machine.Trace (step udpSsl .pureC bobConfig) (Others .pureC (bobOffer 0 bobCarolHash 1000).keys.decKey) s
        [.await true (.dgram init (natClient 5000) 1000)] t ∧
      step udpSsl .pureC bobConfig t (.recv true (.dgram confirm (natClient 4000)) 1000 (bobHost 1000) []) = some u ∧
      udpConfirmed .pureC (bobOffer 0 bobCarolHash 1000).keys.decKey confirm = true ∧
      ¬ HasSession u (natClient 4000) (bobOffer 0 bobCarolHash 1000) := by
  obtain ⟨s, run, hpc, hsessions⟩ := bob_waits
  have hforeign : udpConfirmed .pureC (bobOffer 0 bobCarolHash 1000).keys.decKey (clientInit alice.pub aliceBobHash 1000) =
      false := udpConfirmed_udpHsBuild _
  have hlost := onConfirm_lost bobConfig false (natClient 5000) 1000 hforeign
    (by rw [hsessions]; exact List.forall_mem_nil _)
  have hstep := step_confirm udpSsl .pureC bobConfig (clientInit alice.pub aliceBobHash 1000) (natClient 5000) 1000 hpc
  obtain ⟨t, ht⟩ : ∃ t, t = s.onConfirm .pureC bobConfig (bobOffer 0 bobCarolHash 1000) false
      (clientInit alice.pub aliceBobHash 1000) (natClient 5000) 1000 := ⟨_, rfl⟩
  rw [← ht] at hlost hstep
  obtain ⟨u, delivered⟩ : ∃ u, step udpSsl .pureC bobConfig t (.recv true
      (.dgram (udpConfirm .pureC (bobOffer 0 bobCarolHash 1000).keys.decKey) (natClient 4000)) 1000 (bobHost 1000) []) =
        some u := by
    rw [ht, onConfirm_of_not hforeign]
    exact ⟨_, rfl⟩
  refine ⟨s, t, u, _, _, run, hpc, hsessions,
    .cons hstep ⟨fun h => h, ?_, fun o tunIn h => ?_⟩ .nil, delivered, udpConfirmed_udpConfirm, ?_⟩
  · rintro d sender hd
    cases hd
    exact hforeign
  · rw [ht, onConfirm_of_not hforeign] at h
    exact nomatch h
  · rintro ⟨x, hx, live, -, -, hdec⟩
    exact lost_sessions hlost delivered x hx live hdec

/-- With it, Carol has no session. -/
theorem handshake_lost_to_another :
    ∃ s t u, ∃ offer : UdpOffer, ∃ init confirm : Octets, ∃ addr alice : SockAddr, Reachable udpSsl .pureC bobConfig s ∧
      s.pc = .confirm offer false ∧
      Machine.Trace (step udpSsl .pureC bobConfig) (Others .pureC offer.keys.decKey) s
        [.await true (.dgram init alice 1000)] t ∧
      step udpSsl .pureC bobConfig t (.recv true (.dgram confirm addr) 1000 (bobHost 1000) []) = some u ∧
      udpConfirmed .pureC offer.keys.decKey confirm = true ∧ ¬ HasSession u addr offer := by
  obtain ⟨s, t, u, init, confirm, run, hpc, -, others, delivered, confirmed, lost⟩ := bob_interrupted
  exact ⟨s, t, u, _, init, confirm, natClient 4000, natClient 5000, run, hpc, others, delivered, confirmed, lost⟩

/-- Carol's confirmation comes at once, or after Alice's datagram. -/
theorem handshake_among_others_iff_carol :
    (∃ s u, ∃ offer : UdpOffer, ∃ confirm, Reachable udpSsl .pureC bobConfig s ∧
      step udpSsl .pureC bobConfig s (.await true (.dgram confirm (natClient 4000) 1000)) = some u ∧
      ((HasSession u (natClient 4000) offer ∧ Machine.Trace (step udpSsl .pureC bobConfig) (DataWritten .pureC) s [] s) ↔
        (∀ e ∈ ([] : List UdpEvent), e.datagram = none) ∧
          ((∃ x ∈ s.sessions, x.active = true ∧ x.addr.ip = (natClient 4000).ip) ∨ s.sessions.length < udpMaxClients))) ∧
    ∃ s t u, ∃ offer : UdpOffer, ∃ init confirm, Reachable udpSsl .pureC bobConfig s ∧
      step udpSsl .pureC bobConfig t (.recv true (.dgram confirm (natClient 4000)) 1000 (bobHost 1000) []) = some u ∧
      ((HasSession u (natClient 4000) offer ∧ Machine.Trace (step udpSsl .pureC bobConfig) (DataWritten .pureC) s
          [.await true (.dgram init (natClient 5000) 1000)] t) ↔
        (∀ e ∈ [UdpEvent.await true (.dgram init (natClient 5000) 1000)], e.datagram = none) ∧
          ((∃ x ∈ s.sessions, x.active = true ∧ x.addr.ip = (natClient 4000).ip) ∨ s.sessions.length < udpMaxClients)) := by
  constructor
  · obtain ⟨s, run, hpc, hsessions⟩ := bob_waits
    have hstep := step_confirm udpSsl .pureC bobConfig
      (udpConfirm .pureC (bobOffer 0 bobCarolHash 1000).keys.decKey) (natClient 4000) 1000 hpc
    refine ⟨s, _, bobOffer 0 bobCarolHash 1000, _, run, hstep, ?_⟩
    exact (handshake_among_others_iff udpSsl .pureC bobConfig s s _ _ false [] _ _ (natClient 4000) hpc
      (by rw [hsessions]; exact List.forall_mem_nil _) .nil hstep rfl udpConfirmed_udpConfirm).1
  · obtain ⟨s, t, u, init, confirm, run, hpc, hsessions, others, delivered, confirmed, -⟩ := bob_interrupted
    refine ⟨s, t, u, bobOffer 0 bobCarolHash 1000, init, confirm, run, delivered, ?_⟩
    exact (handshake_among_others_iff udpSsl .pureC bobConfig s t u _ false _ _ confirm (natClient 4000) hpc
      (by rw [hsessions]; exact List.forall_mem_nil _) others delivered rfl confirmed).1

end UdpServer

end AegisTunnel
