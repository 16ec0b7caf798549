import AegisTunnel.Theorems.ModeTunUdp

/-! # Failed key exchanges

None of the handshakes looks at what `ecdh_derive` returns. Where an exchange fails, the handshake goes on with
what the buffer held before, and completes like any other. -/

namespace AegisTunnel
open Octets

/-- The exchanges of a handshake succeed: those of the own ephemeral key `e` and the own static key `k` with the
    peer's static key `p`, and that of `k` with the peer's ephemeral key `r`. -/
def Exchanges (lib : OpenSsl) (k p : Word 32) (e : KeyPair) (r : Word 32) : Prop :=
  (ecdhDerive lib e.priv p).isSome ∧ (ecdhDerive lib k p).isSome ∧ (ecdhDerive lib k r).isSome

/-- The ephemeral keys of a handshake over TCP: the own one and the one that comes in. -/
def TcpKeys (e : KeyPair) (r : Word 32) (w : World) : Prop := w.keygens.head? = some (some e) ∧ (asymHdr w).1 = some r

/-- Those of a client over UDP. -/
def UdpKeys (e : KeyPair) (r : Word 32) (c : UdpClient) : Prop :=
  c.host.keygens.head? = some (some e) ∧ ∃ d, c.dgrams.head? = some (some d) ∧ load 32 (d.drop 4) = r

/-- A handshake of the server over UDP with the peer `p`: it answers an initial datagram with the key `r`, and
    the wait for the confirmation ends. -/
structure UdpExchange (lib : OpenSsl) (b : Backend) (cfg : UdpConfig) (p : Word 32) (e : KeyPair) (r : Word 32)
    (s s₁ s₂ : UdpServer) : Prop where
  answered : ∃ d sender now host writes offer tunIn, host.keygens.head? = some (some e) ∧
    load 32 ((d.take udpHsDgram).drop 4) = r ∧
    UdpServer.step lib b cfg s (.recv true (.dgram d sender) now host writes) = some s₁ ∧
    s₁.pc = .confirm offer tunIn ∧ (cfg.peers.map (·.pub))[offer.peer]? = some p
  ended : ∃ running answer, UdpServer.step lib b cfg s₁ (.await running answer) = some s₂

/-- With these keys the handshake gives up if an exchange fails. -/
def Aborts {σ α : Type} (keys : σ → Prop) (exchanged : Prop) (x : Run σ α) : Prop :=
  ∀ s, keys s → ¬ exchanged → (x s).1 = none

/-- With these keys the server installs no session if an exchange fails. -/
def ServerAborts (lib : OpenSsl) (b : Backend) (k p : Word 32) (e : KeyPair) (r : Word 32) : Prop :=
  ∀ cfg s s₁ s₂, cfg.asymPriv = k → UdpExchange lib b cfg p e r s s₁ s₂ → ¬ Exchanges lib k p e r →
    s₂.installs = s₁.installs

/-! ### Runs that complete

With buffers of zeros, messages that are built with the keys that come out. -/

/-- What a buffer of zeros holds after `ecdh_derive`. -/
def dhOrZero (lib : OpenSsl) (k p : Word 32) : Word 32 := (ecdhDerive lib k p).getD (Word.zero 32)

section
variable (lib : OpenSsl) (b : Backend) (k p : Word 32) (e : KeyPair) (r : Word 32)

theorem fills_dhOrZero : Fills lib [] k p (dhOrZero lib k p) := by
  unfold Fills derived dhOrZero
  cases ecdhDerive lib k p <;> rfl

/-- The key of the first message, at the end that has `r` from the other. -/
def zeroInit : Block := initKey lib (dhOrZero lib k r) (dhOrZero lib k p)

/-- The shared secret, at the end that has sent the first message. -/
def zeroClientShared : Word 32 := asymShared lib (dhOrZero lib e.priv p) (dhOrZero lib k p) (dhOrZero lib k r)

/-- The shared secret, at the other end. -/
def zeroServerShared : Word 32 := asymShared lib (dhOrZero lib k r) (dhOrZero lib k p) (dhOrZero lib e.priv p)

/-- A host at the second 1 with the key pair `e`, to which the bytes come. -/
def zeroHost (m : Octets) : World := ⟨byteByByte m, [], [], [1, 1], [some e], [], replayInit⟩

theorem fresh_in_replayInit : isReplayIn replayInit 1 r = false := by
  have hzero : ∀ x ∈ replayInit.slots.toList, x = ⟨0, Word.zero 8⟩ := fun x hx => List.eq_of_mem_replicate hx
  rw [isReplayIn, List.any_eq_false]
  intro x hx
  rw [hzero x hx]
  simp

theorem tcpKeys_zeroHost (ts : Int64) (key : Block) : TcpKeys e r (zeroHost e (asymWire b r ts key)) := by
  have hin : arriving (zeroHost e (asymWire b r ts key)).inbox = some ((asymHeader ++ r.toList) ++ asymBody b r ts key) := by
    rw [← asymWire_eq]
    exact arriving_byteByByte _
  obtain ⟨q, hhdr, -⟩ := asymHdr_arriving hin
  exact ⟨rfl, congrArg Prod.fst hhdr⟩

theorem exists_client : ∃ w, TcpKeys e r w ∧ (handshakeClient lib b k p w).1 ≠ none := by
  let w := zeroHost e (asymWire b r 1 (asymResp lib (zeroClientShared lib k p e r)))
  have hin : arriving w.inbox = some (asymWire b r 1 (asymResp lib (zeroClientShared lib k p e r)) ++ []) := by
    rw [List.append_nil]
    exact arriving_byteByByte _
  obtain ⟨q, hstart, -⟩ := handshakeClient_start (b := b) (w := w) rfl rfl (fun k hk => nomatch hk)
    (fills_dhOrZero lib e.priv p) (fills_dhOrZero lib k p)
  obtain ⟨w', hclient, -⟩ := clientFinish_arriving (b := b) (w := { w with keygens := [], clock := [1], outbox := _, sends := q })
    hin (fills_dhOrZero lib e.priv p) (fills_dhOrZero lib k p) (fills_dhOrZero lib k r) rfl (by decide) (by decide)
    (fresh_in_replayInit r)
  refine ⟨w, tcpKeys_zeroHost b e r 1 _, ?_⟩
  rw [hstart, hclient]
  exact Option.some_ne_none _

theorem exists_server : ∃ w, TcpKeys e r w ∧ (handshakeServer lib b k p w).1 ≠ none := by
  let w := zeroHost e (asymWire b r 1 (zeroInit lib k p r))
  have hin : arriving w.inbox = some (asymWire b r 1 (zeroInit lib k p r) ++ []) := by
    rw [List.append_nil]
    exact arriving_byteByByte _
  obtain ⟨w', hserver, -, -⟩ := handshakeServer_arriving (b := b) hin (fills_dhOrZero lib k r) (fills_dhOrZero lib k p)
    (fills_dhOrZero lib e.priv p) rfl rfl (by decide) (by decide) (by decide) (fresh_in_replayInit r) (fun k hk => nomatch hk)
  refine ⟨w, tcpKeys_zeroHost b e r 1 _, ?_⟩
  rw [hserver]
  exact Option.some_ne_none _

theorem exists_udpClient : ∃ c, UdpKeys e r c ∧ (udpHandshakeClient lib b k p c).1 ≠ none := by
  let sh := zeroClientShared lib k p e r
  let resp := udpHsBuild b r 1 (asymResp lib sh)
  let c : UdpClient := ⟨zeroHost e [], [some resp, some (udpConfirm b (secondHalf (udpSess lib sh)))], [], []⟩
  obtain ⟨q, hstart, hq⟩ := udpHandshakeClient_start (c := c) b rfl rfl (fills_dhOrZero lib e.priv p)
    (fills_dhOrZero lib k p) (fun k hk => nomatch hk)
  obtain ⟨c', hclient, -⟩ := udpClientFinish_ok (c := { c with
    host := { c.host with keygens := [], clock := [1] }, sent := _, sends := q }) b rfl (fills_dhOrZero lib e.priv p)
    (fills_dhOrZero lib k p) (fills_dhOrZero lib k r) rfl (by decide) (by decide) hq
  refine ⟨c, ⟨rfl, resp, rfl, drop_four_udpHsBuild⟩, ?_⟩
  rw [hstart, hclient]
  exact Option.some_ne_none _

theorem exists_udpExchange : ∃ cfg s s₁ s₂, cfg.asymPriv = k ∧ UdpExchange lib b cfg p e r s s₁ s₂ ∧
    s₂.installs ≠ s₁.installs := by
  let cfg : UdpConfig := ⟨k, [⟨p, 0⟩], 0⟩
  let dgram := udpHsBuild b r 1 (zeroInit lib k p r)
  let s : UdpServer := { UdpServer.init with pc := .udp false }
  have hparse : udpHsParse b dgram (initKey lib (dhOrZero lib k r) (dhOrZero lib k p)) = some (r, 1) := udpHsParse_udpHsBuild
  have hee : Fills lib [] k (load 32 (dgram.drop 4)) (dhOrZero lib k r) := by
    rw [drop_four_udpHsBuild]
    exact fills_dhOrZero lib k r
  have hanswer := udpAnswer_ok (w := zeroHost e []) 0 hparse hee (fills_dhOrZero lib k p) (fills_dhOrZero lib e.priv p) rfl rfl
    (by decide) (by decide)
  let offer := offerOf lib b 0 e.pub 1 (zeroServerShared lib k p e r)
  have htry : (udpTryPeers lib b k dgram 0 [p] (zeroHost e [])).1 = some offer := by
    rw [udpTryPeers, Run.orElse_some hanswer]
    rfl
  obtain ⟨s₁, hinit, hpc, hsessions⟩ : ∃ s₁,
      UdpServer.step lib b cfg s (.recv true (.dgram dgram (natClient 1)) 1 (zeroHost e []) []) = some s₁ ∧
        s₁.pc = .confirm offer false ∧ s₁.sessions = [] :=
    ⟨_, UdpServer.step_init [] rfl length_udpHsBuild getD_udpHsBuild (by decide +kernel) htry, rfl, rfl⟩
  have hconfirm := UdpServer.step_confirm lib b cfg (udpConfirm b offer.keys.decKey) (natClient 1) 1 hpc
  rw [UdpServer.onConfirm_of_confirmed udpConfirmed_udpConfirm] at hconfirm
  have hkey : load 32 ((dgram.take udpHsDgram).drop 4) = r := by
    have hlen : dgram.length ≤ udpHsDgram := length_udpHsBuild.le
    rw [List.take_of_length_le hlen]
    exact drop_four_udpHsBuild
  refine ⟨cfg, s, s₁, _, rfl, ⟨⟨dgram, natClient 1, 1, zeroHost e [], [], offer, false, rfl, hkey, hinit, hpc, rfl⟩,
    true, _, hconfirm⟩, fun h => ?_⟩
  have hslot : sessionSlot s₁.sessions (natClient 1) = some 0 := by
    rw [hsessions]
    rfl
  rw [hslot] at h
  simpa using congrArg List.length h

end

/-- Each of the handshakes gives up after a failed exchange just if none of its exchanges fails. -/
theorem failed_exchange_iff (lib : OpenSsl) (b : Backend) (k p : Word 32) (e : KeyPair) (r : Word 32) :
    (Aborts (TcpKeys e r) (Exchanges lib k p e r) (handshakeClient lib b k p) ↔ Exchanges lib k p e r) ∧
    (Aborts (TcpKeys e r) (Exchanges lib k p e r) (handshakeServer lib b k p) ↔ Exchanges lib k p e r) ∧
    (Aborts (UdpKeys e r) (Exchanges lib k p e r) (udpHandshakeClient lib b k p) ↔ Exchanges lib k p e r) ∧
    (ServerAborts lib b k p e r ↔ Exchanges lib k p e r) := by
  have aborts : ∀ {σ α : Type} {keys : σ → Prop} {x : Run σ α}, (∃ s, keys s ∧ (x s).1 ≠ none) →
      (Aborts keys (Exchanges lib k p e r) x ↔ Exchanges lib k p e r) := by
    rintro σ α keys x ⟨s, hkeys, hdone⟩
    constructor
    · intro h
      by_contra hfail
      exact hdone (h s hkeys hfail)
    · exact fun h s _ hfail => absurd h hfail
  refine ⟨aborts (exists_client lib b k p e r), aborts (exists_server lib b k p e r),
    aborts (exists_udpClient lib b k p e r), fun h => ?_, fun h cfg s s₁ s₂ _ _ hfail => absurd h hfail⟩
  obtain ⟨cfg, s, s₁, s₂, hpriv, hexchange, hinstalled⟩ := exists_udpExchange lib b k p e r
  by_contra hfail
  exact hinstalled (h cfg s s₁ s₂ hpriv hexchange hfail)

/-- X25519 for which the zero point is of low order. -/
def lowOrderSsl : OpenSsl where
  x25519 k p := if p = Word.zero 32 then none else aliceBobSsl.x25519 k p
  sha256 := aliceBobSsl.sha256

/-- A peer that sends a point of low order completes each of the handshakes. -/
theorem low_order_completes :
    ecdhDerive lowOrderSsl alice.priv (Word.zero 32) = none ∧
    (∃ w, TcpKeys alice (Word.zero 32) w ∧ (handshakeClient lowOrderSsl .pureC alice.priv bob.pub w).1 ≠ none) ∧
    (∃ w, TcpKeys alice (Word.zero 32) w ∧ (handshakeServer lowOrderSsl .pureC alice.priv bob.pub w).1 ≠ none) ∧
    (∃ c, UdpKeys alice (Word.zero 32) c ∧ (udpHandshakeClient lowOrderSsl .pureC alice.priv bob.pub c).1 ≠ none) ∧
    (∃ cfg s s₁ s₂, cfg.asymPriv = alice.priv ∧
      UdpExchange lowOrderSsl .pureC cfg bob.pub alice (Word.zero 32) s s₁ s₂ ∧ s₂.installs ≠ s₁.installs) :=
  ⟨by decide, exists_client .., exists_server .., exists_udpClient .., exists_udpExchange ..⟩

end AegisTunnel
