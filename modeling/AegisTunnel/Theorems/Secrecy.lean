import AegisTunnel.Lib.Deduction
import AegisTunnel.Theorems.UdpHandshake

/-! Forward secrecy of the handshake, symbolically: the messages and the keys as terms, that these are what
    the code computes, and what can be deduced from them with the static private keys. -/

namespace AegisTunnel
open Octets Deduction

/-- The four key pairs of a handshake. -/
inductive KeyName where
  | client
  | server
  | clientEph
  | serverEph
  deriving DecidableEq

inductive Transport where
  | tcp
  | udp

/-! ### The terms of the handshake -/

namespace Symbolic

abbrev Message := Term KeyName Octets

/-- The three secrets, each the digest of a product. None has both ephemeral keys. -/
def ee : Message := .hash (.dh s(.clientEph, .server))
def es : Message := .hash (.dh s(.client, .server))
def se : Message := .hash (.dh s(.client, .serverEph))

def initKey : Message := .half false (.hash (.cat (.cat ee es) (.lit initLabel)))

def shared : Message := .hash (.cat (.cat (.cat ee es) se) (.lit sharedLabel))

def respKey : Message := .half false (.hash (.cat shared (.lit respLabel)))

/-- The digest whose halves are the session keys. -/
def session : Transport → Message
  | .tcp => .hash (.cat (.cat (.cat shared (.pub .clientEph)) (.pub .serverEph)) (.lit sessionLabel))
  | .udp => .hash (.cat shared (.lit sessionLabel))

def header (eph : KeyName) : Message := .cat (.lit asymHeader) (.pub eph)

def ciphertext (key : Message) (eph : KeyName) (ts : Int64) : Message := .enc key (header eph) (.lit (tsBytes ts))

/-- The ephemeral public keys and the ciphertexts of both messages. -/
def transcript (tc ts : Int64) : Set Message :=
  {.pub .clientEph, ciphertext initKey .clientEph tc, .pub .serverEph, ciphertext respKey .serverEph ts}

/-- The transcript and both static private keys. -/
def leaked (tc ts : Int64) : Set Message := insert (.priv .client) (insert (.priv .server) (transcript tc ts))

/-- A message of 60 bytes. -/
def wire (key : Message) (eph : KeyName) (ts : Int64) : Message := .cat (header eph) (ciphertext key eph ts)

section
variable {tc ts : Int64}

theorem derives_ee : Derives (leaked tc ts) ee :=
  .hash (.dh_symm (.known (by simp [leaked, transcript])) (.known (by simp [leaked])))

theorem derives_es : Derives (leaked tc ts) es :=
  .hash (.dh (.known (by simp [leaked])) (.pub (.known (by simp [leaked]))))

theorem derives_se : Derives (leaked tc ts) se :=
  .hash (.dh (.known (by simp [leaked])) (.known (by simp [leaked, transcript])))

theorem derives_shared : Derives (leaked tc ts) shared :=
  .hash (.cat (.cat (.cat derives_ee derives_es) derives_se) (.lit _))

/-- Whoever learns both static private keys can compute the session keys from the transcript. -/
theorem derives_session (tr : Transport) : Derives (leaked tc ts) (session tr) := by
  cases tr with
  | tcp =>
    have hclient : Derives (leaked tc ts) (.pub .clientEph) := .known (by simp [leaked, transcript])
    have hserver : Derives (leaked tc ts) (.pub .serverEph) := .known (by simp [leaked, transcript])
    exact .hash (.cat (.cat (.cat derives_shared hclient) hserver) (.lit _))
  | udp => exact .hash (.cat derives_shared (.lit _))

/-- The ephemeral private keys and their product stay secret. -/
theorem leaked_guards : ∀ t ∈ leaked tc ts, Guards {.clientEph, .serverEph} t := by
  intro t ht
  rcases ht with rfl | rfl | rfl | rfl | rfl | rfl <;> simp [Guards, ciphertext]

end

/-- The values of the terms, for the key pairs and products of a run. -/
def values (lib : OpenSsl) (key : KeyName → KeyPair) (secret : Sym2 KeyName → Word 32) : Interp KeyName Octets Octets where
  lit l := l
  priv k := (key k).priv.toList
  pub k := (key k).pub.toList
  dh s := (secret s).toList
  hash l := (lib.sha256 l).toList
  cat l l' := l ++ l'
  half second l := if second then (l.drop 16).take 16 else l.take 16
  enc key ad payload :=
    let r := aegisPureEncrypt payload ad (Word.zero 16) (load 16 key)
    r.1 ++ r.2.toList

/-- The products are what X25519 gives to either party. -/
def Agreed (lib : OpenSsl) (key : KeyName → KeyPair) (secret : Sym2 KeyName → Word 32) : Prop :=
  ∀ p ∈ [(KeyName.clientEph, KeyName.server), (.client, .server), (.client, .serverEph)],
    lib.x25519 (key p.1).priv (key p.2).pub = some (secret s(p.1, p.2)) ∧
      lib.x25519 (key p.2).priv (key p.1).pub = some (secret s(p.1, p.2))

section Values
variable {lib : OpenSsl} {key : KeyName → KeyPair} {secret : Sym2 KeyName → Word 32}

theorem eval_half_false (t : Message) {h : Word 32} (ht : (values lib key secret).eval t = h.toList) :
    (values lib key secret).eval (.half false t) = (firstHalf h).toList := by
  rw [firstHalf, toList_load_of_le (by simp), ← ht]
  rfl

theorem eval_half_true (t : Message) {h : Word 32} (ht : (values lib key secret).eval t = h.toList) :
    (values lib key secret).eval (.half true t) = (secondHalf h).toList := by
  rw [secondHalf, toList_load_of_le (by simp), ← ht]
  rfl

/-- The values of the three secrets. -/
def eeOf (lib : OpenSsl) (secret : Sym2 KeyName → Word 32) : Word 32 := lib.sha256 (secret s(.clientEph, .server)).toList
def esOf (lib : OpenSsl) (secret : Sym2 KeyName → Word 32) : Word 32 := lib.sha256 (secret s(.client, .server)).toList
def seOf (lib : OpenSsl) (secret : Sym2 KeyName → Word 32) : Word 32 := lib.sha256 (secret s(.client, .serverEph)).toList

def sharedOf (lib : OpenSsl) (secret : Sym2 KeyName → Word 32) : Word 32 :=
  asymShared lib (eeOf lib secret) (esOf lib secret) (seOf lib secret)

theorem eval_initKey :
    (values lib key secret).eval initKey = (AegisTunnel.initKey lib (eeOf lib secret) (esOf lib secret)).toList :=
  eval_half_false _ rfl

theorem eval_respKey : (values lib key secret).eval respKey = (asymResp lib (sharedOf lib secret)).toList :=
  eval_half_false _ rfl

theorem eval_wire (b : Backend) {t : Message} {k : Block} (ht : (values lib key secret).eval t = k.toList) (eph : KeyName)
    (ts : Int64) : (values lib key secret).eval (wire t eph ts) = asymWire b (key eph).pub ts k := by
  have hload : load 16 ((values lib key secret).eval t) = k := by rw [ht, load_toList]
  rw [asymWire, aegisEncrypt_eq, ← hload, List.append_assoc]
  rfl

/-- The session keys of the client. -/
def keysOf (lib : OpenSsl) (key : KeyName → KeyPair) (secret : Sym2 KeyName → Word 32) : Transport → SessionKeys
  | .tcp => asymSess lib (sharedOf lib secret) (key .clientEph).pub (key .serverEph).pub
  | .udp => ⟨firstHalf (udpSess lib (sharedOf lib secret)), secondHalf (udpSess lib (sharedOf lib secret))⟩

theorem eval_session (lib : OpenSsl) (key : KeyName → KeyPair) (secret : Sym2 KeyName → Word 32) (tr : Transport) :
    (values lib key secret).eval (.half false (session tr)) = (keysOf lib key secret tr).encKey.toList ∧
      (values lib key secret).eval (.half true (session tr)) = (keysOf lib key secret tr).decKey.toList := by
  cases tr with
  | tcp => exact ⟨eval_half_false _ rfl, eval_half_true _ rfl⟩
  | udp => exact ⟨eval_half_false _ rfl, eval_half_true _ rfl⟩

end Values

end Symbolic

/-! ### Completed handshakes -/

/-- Both sides have completed a handshake: the messages of the client and of the server, and the client's
    session keys. -/
inductive Completed (lib : OpenSsl) (client server ce se : KeyPair) (tc ts : Int64) :
    Transport → Octets → Octets → SessionKeys → Prop where
  | tcp {nc ns : Int64} {wc ws ws' : World} {bc bs : Backend} {r r' : Octets} {ks kc : SessionKeys}
      (meet : Meeting lib client server ce se tc nc ns ts wc ws)
      (toServer : arriving ws.inbox = some ((handshakeClient lib bc client.priv server.pub wc).2.outbox ++ r))
      (serverDone : handshakeServer lib bs server.priv client.pub ws = (some ks, ws'))
      (toClient : arriving wc.inbox = some (ws'.outbox ++ r'))
      (clientDone : (handshakeClient lib bc client.priv server.pub wc).1 = some kc) :
      Completed lib client server ce se tc ts .tcp (handshakeClient lib bc client.priv server.pub wc).2.outbox ws'.outbox kc
  | udp {nc ns : Int64} {c : UdpClient} {ws : World} {bc bs : Backend} {pi : Nat} {init : Octets} {offer : UdpOffer}
      {rest : List (Option Octets)} {kc : SessionKeys} (meet : UdpMeeting lib client server ce se tc nc ns ts c ws)
      (toServer : (udpHandshakeClient lib bc client.priv server.pub c).2.sent.head? = some init)
      (serverDone : (udpAnswer lib bs server.priv init pi client.pub ws).1 = some offer)
      (toClient : c.dgrams = some offer.resp :: some offer.confirm :: rest)
      (clientDone : (udpHandshakeClient lib bc client.priv server.pub c).1 = some kc) :
      Completed lib client server ce se tc ts .udp init offer.resp kc

/-- The key pairs under their names. -/
def pairs (client server ce se : KeyPair) : KeyName → KeyPair
  | .client => client
  | .server => server
  | .clientEph => ce
  | .serverEph => se

section Completed
variable {lib : OpenSsl} {client server ce se : KeyPair} {tc ts : Int64} {tr : Transport} {init resp : Octets} {kc : SessionKeys}

theorem exists_agreed (ephStatic : Agree lib ce server) (staticStatic : Agree lib client server)
    (staticEph : Agree lib client se) : ∃ secret, Symbolic.Agreed lib (pairs client server ce se) secret := by
  obtain ⟨ee, hee, hee'⟩ := ephStatic
  obtain ⟨es, hes, hes'⟩ := staticStatic
  obtain ⟨sec, hse, hse'⟩ := staticEph
  refine ⟨fun s => if s = s(.clientEph, .server) then ee else if s = s(.client, .server) then es else sec, ?_⟩
  intro p hp
  simp only [List.mem_cons, List.not_mem_nil, or_false] at hp
  rcases hp with rfl | rfl | rfl
  · exact ⟨hee, hee'⟩
  · exact ⟨hes, hes'⟩
  · exact ⟨hse, hse'⟩

/-- The digests that the two sides compute are the values of the secrets. -/
structure Derived (lib : OpenSsl) (client server ce se : KeyPair) (secret : Sym2 KeyName → Word 32) : Prop where
  clientEe : ecdhDerive lib ce.priv server.pub = some (Symbolic.eeOf lib secret)
  serverEe : ecdhDerive lib server.priv ce.pub = some (Symbolic.eeOf lib secret)
  clientEs : ecdhDerive lib client.priv server.pub = some (Symbolic.esOf lib secret)
  serverEs : ecdhDerive lib server.priv client.pub = some (Symbolic.esOf lib secret)
  clientSe : ecdhDerive lib client.priv se.pub = some (Symbolic.seOf lib secret)
  serverSe : ecdhDerive lib se.priv client.pub = some (Symbolic.seOf lib secret)

theorem Symbolic.Agreed.derived {secret : Sym2 KeyName → Word 32}
    (h : Symbolic.Agreed lib (pairs client server ce se) secret) : Derived lib client server ce se secret := by
  have digest : ∀ {k p x : Word 32}, lib.x25519 k p = some x → ecdhDerive lib k p = some (lib.sha256 x.toList) := by
    intro k p x hx
    rw [ecdhDerive, hx]
    rfl
  obtain ⟨hee, hee'⟩ := h (.clientEph, .server) (by simp)
  obtain ⟨hes, hes'⟩ := h (.client, .server) (by simp)
  obtain ⟨hse, hse'⟩ := h (.client, .serverEph) (by simp)
  exact ⟨digest hee, digest hee', digest hes, digest hes', digest hse, digest hse'⟩

/-- The run has the values of the terms. -/
def HasValues (lib : OpenSsl) (key : KeyName → KeyPair) (tc ts : Int64) (tr : Transport) (init resp : Octets)
    (kc : SessionKeys) (secret : Sym2 KeyName → Word 32) : Prop :=
  init = (Symbolic.values lib key secret).eval (Symbolic.wire Symbolic.initKey .clientEph tc) ∧
    resp = (Symbolic.values lib key secret).eval (Symbolic.wire Symbolic.respKey .serverEph ts) ∧
    kc.encKey.toList = (Symbolic.values lib key secret).eval (.half false (Symbolic.session tr)) ∧
    kc.decKey.toList = (Symbolic.values lib key secret).eval (.half true (Symbolic.session tr))

theorem hasValues_of_eq {secret : Sym2 KeyName → Word 32} (bc bs : Backend)
    (hinit : init = asymWire bc ce.pub tc (initKey lib (Symbolic.eeOf lib secret) (Symbolic.esOf lib secret)))
    (hresp : resp = asymWire bs se.pub ts (asymResp lib (Symbolic.sharedOf lib secret)))
    (hkeys : kc = Symbolic.keysOf lib (pairs client server ce se) secret tr) :
    HasValues lib (pairs client server ce se) tc ts tr init resp kc secret := by
  obtain ⟨henc, hdec⟩ := Symbolic.eval_session lib (pairs client server ce se) secret tr
  refine ⟨?_, ?_, hkeys ▸ henc.symm, hkeys ▸ hdec.symm⟩
  · rw [hinit, Symbolic.eval_wire bc Symbolic.eval_initKey]
    rfl
  · rw [hresp, Symbolic.eval_wire bs Symbolic.eval_respKey]
    rfl

theorem Meeting.hasValues {nc ns : Int64} {wc ws ws' : World} {bc bs : Backend} {r r' : Octets} {ks : SessionKeys}
    (meet : Meeting lib client server ce se tc nc ns ts wc ws) {secret : Sym2 KeyName → Word 32}
    (d : Derived lib client server ce se secret)
    (toServer : arriving ws.inbox = some ((handshakeClient lib bc client.priv server.pub wc).2.outbox ++ r))
    (serverDone : handshakeServer lib bs server.priv client.pub ws = (some ks, ws'))
    (toClient : arriving wc.inbox = some (ws'.outbox ++ r'))
    (clientDone : (handshakeClient lib bc client.priv server.pub wc).1 = some kc) :
    HasValues lib (pairs client server ce se) tc ts .tcp (handshakeClient lib bc client.priv server.pub wc).2.outbox ws'.outbox
      kc secret := by
  obtain ⟨kg, hskeygen⟩ := meet.serverKeygen
  obtain ⟨scl, hsclock⟩ := meet.serverClock
  obtain ⟨kg', hckeygen⟩ := meet.clientKeygen
  obtain ⟨ccl, hcclock⟩ := meet.clientClock
  have hinit := meet.client_outbox bc d.clientEe d.clientEs
  rw [hinit] at toServer
  obtain ⟨w, hserver, hout, -⟩ := handshakeServer_arriving (b := bs) toServer (.of_derive d.serverEe _)
    (.of_derive d.serverEs _) (.of_derive d.serverSe _) hskeygen hsclock meet.serverNow meet.serverTs meet.serverWindow
    meet.serverFresh meet.serverSends
  cases serverDone.symm.trans hserver
  rw [meet.serverSilent, List.nil_append] at hout
  rw [hout] at toClient
  obtain ⟨q, hstart, -⟩ := handshakeClient_start (b := bc) hckeygen hcclock meet.clientSends (.of_derive d.clientEe _)
    (.of_derive d.clientEs _)
  obtain ⟨w', hclient, -⟩ := clientFinish_arriving (b := bc)
    (w := { wc with keygens := kg', clock := nc :: ccl, outbox := _, sends := q }) toClient (.of_derive d.clientEe _)
    (.of_derive d.clientEs _) (.of_derive d.clientSe _) rfl meet.clientNow meet.clientWindow meet.clientFresh
  rw [hstart, hclient] at clientDone
  exact hasValues_of_eq bc bs hinit hout (Option.some.inj clientDone).symm

theorem UdpMeeting.hasValues {nc ns : Int64} {c : UdpClient} {ws : World} {bc bs : Backend} {pi : Nat} {offer : UdpOffer}
    {rest : List (Option Octets)} (meet : UdpMeeting lib client server ce se tc nc ns ts c ws)
    {secret : Sym2 KeyName → Word 32} (d : Derived lib client server ce se secret)
    (toServer : (udpHandshakeClient lib bc client.priv server.pub c).2.sent.head? = some init)
    (serverDone : (udpAnswer lib bs server.priv init pi client.pub ws).1 = some offer)
    (toClient : c.dgrams = some offer.resp :: some offer.confirm :: rest)
    (clientDone : (udpHandshakeClient lib bc client.priv server.pub c).1 = some kc) :
    HasValues lib (pairs client server ce se) tc ts .udp init offer.resp kc secret := by
  obtain ⟨kg, hskeygen⟩ := meet.serverKeygen
  obtain ⟨scl, hsclock⟩ := meet.serverClock
  obtain ⟨kg', hckeygen⟩ := meet.clientKeygen
  obtain ⟨ccl, hcclock⟩ := meet.clientClock
  have hinit : init = udpHsBuild bc ce.pub tc (initKey lib (Symbolic.eeOf lib secret) (Symbolic.esOf lib secret)) :=
    Option.some.inj (toServer.symm.trans (meet.client_init bc d.clientEe d.clientEs))
  have hparse : udpHsParse bs init (initKey lib (Symbolic.eeOf lib secret) (Symbolic.esOf lib secret)) = some (ce.pub, tc) := by
    rw [hinit]
    exact udpHsParse_udpHsBuild
  have hee : ecdhDerive lib server.priv (load 32 (init.drop 4)) = some (Symbolic.eeOf lib secret) := by
    rw [hinit, drop_four_udpHsBuild]
    exact d.serverEe
  have hanswer := udpAnswer_ok pi hparse (.of_derive hee _) (.of_derive d.serverEs _) (.of_derive d.serverSe _) hskeygen
    hsclock meet.serverNow meet.serverWindow
  have hoffer : offer = offerOf lib bs pi se.pub ts (Symbolic.sharedOf lib secret) :=
    Option.some.inj (serverDone.symm.trans (congrArg Prod.fst hanswer))
  rw [hoffer] at toClient ⊢
  obtain ⟨q, hstart, hq⟩ := udpHandshakeClient_start bc hckeygen hcclock (.of_derive d.clientEe _)
    (.of_derive d.clientEs _) meet.clientSends
  obtain ⟨c', hclient, -⟩ := udpClientFinish_ok (c := { c with
    host := { c.host with keygens := kg', clock := nc :: ccl }, sent := _, sends := q }) bc toClient
    (.of_derive d.clientEe _) (.of_derive d.clientEs _) (.of_derive d.clientSe _) rfl meet.clientNow meet.clientWindow hq
  rw [hstart, hclient] at clientDone
  exact hasValues_of_eq bc bs hinit rfl (Option.some.inj clientDone).symm

/-- The messages and keys of a completed handshake are the values of the terms. -/
theorem Completed.hasValues (h : Completed lib client server ce se tc ts tr init resp kc) :
    ∃ secret, Symbolic.Agreed lib (pairs client server ce se) secret ∧
      HasValues lib (pairs client server ce se) tc ts tr init resp kc secret := by
  cases h with
  | tcp meet toServer serverDone toClient clientDone =>
    obtain ⟨secret, agreed⟩ := exists_agreed meet.ephStatic meet.staticStatic meet.staticEph
    exact ⟨secret, agreed, meet.hasValues agreed.derived toServer serverDone toClient clientDone⟩
  | udp meet toServer serverDone toClient clientDone =>
    obtain ⟨secret, agreed⟩ := exists_agreed meet.ephStatic meet.staticStatic meet.staticEph
    exact ⟨secret, agreed, meet.hasValues agreed.derived toServer serverDone toClient clientDone⟩

/-- No forward secrecy: of every completed handshake, both session keys can be deduced from the transcript
    and the static private keys, though neither the ephemeral private keys nor their product can be. -/
theorem session_keys_derivable (lib : OpenSsl) (client server ce se : KeyPair) (tc ts : Int64) (tr : Transport)
    (init resp : Octets) (kc : SessionKeys) (h : Completed lib client server ce se tc ts tr init resp kc) :
    (∃ secret, Symbolic.Agreed lib (pairs client server ce se) secret ∧
      HasValues lib (pairs client server ce se) tc ts tr init resp kc secret) ∧
    (∀ second, Derives (Symbolic.leaked tc ts) (.half second (Symbolic.session tr))) ∧
    ¬ Derives (Symbolic.leaked tc ts) (.priv .clientEph) ∧ ¬ Derives (Symbolic.leaked tc ts) (.priv .serverEph) ∧
    ¬ Derives (Symbolic.leaked tc ts) (.dh s(.clientEph, .serverEph)) :=
  ⟨h.hasValues, fun second => .half second (Symbolic.derives_session tr),
    not_derives_priv Symbolic.leaked_guards (by simp), not_derives_priv Symbolic.leaked_guards (by simp),
    not_derives_dh Symbolic.leaked_guards (by simp) (by simp)⟩

end Completed

/-! ### An instance

Alice and Bob with ephemeral keys of their own, and the values of X25519 and SHA-256 on them. -/

def aliceEph : KeyPair where
  priv := word32 0x8182838485868788898a8b8c8d8e8f909192939495969798999a9b9c9d9e9fa0
  pub := word32 0x883186b800b41d5cf0429695da9b3cc4f328ebcd184a6e482fa578c103f06c77

def bobEph : KeyPair where
  priv := word32 0x6162636465666768696a6b6c6d6e6f707172737475767778797a7b7c7d7e7f80
  pub := word32 0x244fe3b963e899dd295baffce248d3530f3a9a7479ba063002680ebfe7adad49

/-- X25519 of Alice's ephemeral key with Bob's static one and of her static key with his ephemeral one. -/
def ephBob : Word 32 := word32 0xe9f4479ab6d9665ef4a4cb22856a439921c5f1d8676fd87b2df8c0bdd618cf2a
def aliceEphBob : Word 32 := word32 0xf14f39609e38389ffdbbd30e7f789ef10ba2d111f891063485de45fcb2700f58

def ephBobHash : Word 32 := word32 0x46ce0d7c654b4bfc3df27cd8bb4e0098248eb29a6bec31dbffb18fb3a0ac129c
def aliceEphBobHash : Word 32 := word32 0xc14c6841e8aec11a287ff81dda0487ec144f88605f03d49bc7a49db07d0c1eea
def freshInit : Word 32 := word32 0xcc4a76ede0bb292dc1bb53dfeae926f62eda20e832ae5f246c17bb27a0c87636
def freshShared : Word 32 := word32 0xf99f215f28596769b896ab836cfcea152e151fb590279ba29af10058d4eec7f9
def freshResp : Word 32 := word32 0x9330781b91cf85fe23e5aef35f55fff712d0280f204b844c915d7fbb8a9046fd
def freshSession : Word 32 := word32 0x3978d976eb51c5ede014c3fbe69f6787214faee73304f6dc1cea7e14532cf544
def freshUdpSession : Word 32 := word32 0x9e72046673565a2a9a0596cf7cdec75558f58b8fbff8b0f3789525eb1dd18d75

def freshSsl : OpenSsl where
  x25519 k p :=
    if (k = aliceEph.priv ∧ p = bob.pub) ∨ (k = bob.priv ∧ p = aliceEph.pub) then some ephBob
    else if (k = alice.priv ∧ p = bobEph.pub) ∨ (k = bobEph.priv ∧ p = alice.pub) then some aliceEphBob
    else aliceBobSsl.x25519 k p
  sha256 l :=
    let ee := ephBobHash.toList
    let es := aliceBobHash.toList
    let se := aliceEphBobHash.toList
    if l = ephBob.toList then ephBobHash
    else if l = aliceEphBob.toList then aliceEphBobHash
    else if l = ee ++ es ++ initLabel then freshInit
    else if l = ee ++ es ++ se ++ sharedLabel then freshShared
    else if l = freshShared.toList ++ respLabel then freshResp
    else if l = freshShared.toList ++ aliceEph.pub.toList ++ bobEph.pub.toList ++ sessionLabel then freshSession
    else if l = freshShared.toList ++ sessionLabel then freshUdpSession
    else aliceBobSsl.sha256 l

theorem fresh_ephStatic : Agree freshSsl aliceEph bob := ⟨ephBob, by decide, by decide⟩
theorem fresh_staticStatic : Agree freshSsl alice bob := ⟨aliceBob, by decide, by decide⟩
theorem fresh_staticEph : Agree freshSsl alice bobEph := ⟨aliceEphBob, by decide, by decide⟩

theorem fresh_meeting (qc qs : List PollRecv) :
    Meeting freshSsl alice bob aliceEph bobEph 1000 1000 1000 1000 (partyWorld aliceEph qc) (partyWorld bobEph qs) := by
  have hclient : isReplayIn replayInit 1000 bobEph.pub = false := by decide
  have hserver : isReplayIn replayInit 1000 aliceEph.pub = false := by decide
  have sends : TakesBytes [] := fun k hk => nomatch hk
  exact ⟨⟨_, rfl⟩, ⟨_, rfl⟩, ⟨_, rfl⟩, ⟨_, rfl⟩, by decide, by decide, by decide, by decide, by decide, hclient, hserver, sends,
    sends, fresh_ephStatic, fresh_staticStatic, fresh_staticEph, rfl, rfl⟩

theorem fresh_completed : ∃ init resp kc, Completed freshSsl alice bob aliceEph bobEph 1000 1000 .tcp init resp kc := by
  obtain ⟨ee, hee, -⟩ := fresh_ephStatic.derive
  obtain ⟨es, hes, -⟩ := fresh_staticStatic.derive
  have toServer : ∀ qc, arriving (byteByByte (asymWire .pureC aliceEph.pub 1000 (initKey freshSsl ee es))) =
      some ((handshakeClient freshSsl .pureC alice.priv bob.pub (partyWorld aliceEph qc)).2.outbox ++ []) := by
    intro qc
    rw [(fresh_meeting qc []).client_outbox .pureC hee hes, List.append_nil]
    exact arriving_byteByByte _
  generalize byteByByte (asymWire .pureC aliceEph.pub 1000 (initKey freshSsl ee es)) = qs at toServer
  obtain ⟨ks, ws', hserver, -⟩ := (fresh_meeting [] qs).server_ok .pureC .pureC (toServer [])
  have toClient : arriving (byteByByte ws'.outbox) = some (ws'.outbox ++ []) := by
    rw [List.append_nil]
    exact arriving_byteByByte _
  generalize byteByByte ws'.outbox = qc at toClient
  obtain ⟨ks', ws'', hserver', -, hclient⟩ := (fresh_meeting qc qs).server_ok .pureC .pureC (toServer qc)
  cases hserver.symm.trans hserver'
  obtain ⟨kc, wc', hdone, -⟩ := hclient [] toClient
  exact ⟨_, _, kc, .tcp (fresh_meeting qc qs) (toServer qc) hserver toClient (congrArg Prod.fst hdone)⟩

/-- The session keys of a handshake between Alice and Bob follow from their static private keys. -/
theorem session_key_deduced :
    ∃ init resp kc secret, Completed freshSsl alice bob aliceEph bobEph 1000 1000 .tcp init resp kc ∧
      HasValues freshSsl (pairs alice bob aliceEph bobEph) 1000 1000 .tcp init resp kc secret ∧
      Derives (Symbolic.leaked 1000 1000) (.half false (Symbolic.session .tcp)) ∧
      ¬ Derives (Symbolic.leaked 1000 1000) (.priv .clientEph) ∧ ¬ Derives (Symbolic.leaked 1000 1000) (.priv .serverEph) := by
  obtain ⟨init, resp, kc, h⟩ := fresh_completed
  obtain ⟨secret, -, hvalues⟩ := h.hasValues
  exact ⟨init, resp, kc, secret, h, hvalues, .half false (Symbolic.derives_session .tcp),
    not_derives_priv Symbolic.leaked_guards (by simp), not_derives_priv Symbolic.leaked_guards (by simp)⟩

/-- Bob's answer over UDP, and Alice when she has it to receive. -/
def freshOffer : UdpOffer :=
  offerOf freshSsl .pureC 0 bobEph.pub 1000 (asymShared freshSsl ephBobHash aliceBobHash aliceEphBobHash)

def freshClient : UdpClient where
  host := partyWorld aliceEph []
  dgrams := [some freshOffer.resp, some freshOffer.confirm]
  sends := []
  sent := []

theorem fresh_udpMeeting :
    UdpMeeting freshSsl alice bob aliceEph bobEph 1000 1000 1000 1000 freshClient (partyWorld bobEph []) :=
  ⟨⟨_, rfl⟩, ⟨_, rfl⟩, ⟨_, rfl⟩, ⟨_, rfl⟩, by decide, by decide, by decide, by decide, (fun k hk => nomatch hk),
    fresh_ephStatic, fresh_staticStatic, fresh_staticEph, rfl⟩

theorem fresh_udpCompleted : ∃ init kc, Completed freshSsl alice bob aliceEph bobEph 1000 1000 .udp init freshOffer.resp kc := by
  have hee : ecdhDerive freshSsl aliceEph.priv bob.pub = some ephBobHash := by decide
  have hee' : ecdhDerive freshSsl bob.priv aliceEph.pub = some ephBobHash := by decide
  have hes : ecdhDerive freshSsl alice.priv bob.pub = some aliceBobHash := by decide
  have hes' : ecdhDerive freshSsl bob.priv alice.pub = some aliceBobHash := by decide
  have hse : ecdhDerive freshSsl alice.priv bobEph.pub = some aliceEphBobHash := by decide
  have hse' : ecdhDerive freshSsl bobEph.priv alice.pub = some aliceEphBobHash := by decide
  have hparse : udpHsParse .pureC (udpHsBuild .pureC aliceEph.pub 1000 (initKey freshSsl ephBobHash aliceBobHash))
      (initKey freshSsl ephBobHash aliceBobHash) = some (aliceEph.pub, 1000) := udpHsParse_udpHsBuild
  have hanswer := udpAnswer_ok (e := bobEph) (w := partyWorld bobEph []) 0 hparse
    (.of_derive (by rw [drop_four_udpHsBuild]; exact hee') _) (.of_derive hes' _) (.of_derive hse' _) rfl rfl (by decide)
    (by decide)
  obtain ⟨q, hstart, hq⟩ := udpHandshakeClient_start (c := freshClient) .pureC rfl rfl (.of_derive hee _)
    (.of_derive hes _) (fun k hk => nomatch hk)
  obtain ⟨c', hclient, -⟩ := udpClientFinish_ok (c := { freshClient with
    host := { freshClient.host with keygens := [], clock := [1000] }, sent := _, sends := q }) .pureC rfl
    (.of_derive hee _) (.of_derive hes _) (.of_derive hse _) rfl (by decide) (by decide) hq
  exact ⟨_, _, .udp fresh_udpMeeting (fresh_udpMeeting.client_init .pureC hee hes) (congrArg Prod.fst hanswer) rfl
    (by rw [hstart, hclient])⟩

theorem session_keys_derivable_fresh :
    ∃ init kc, Completed freshSsl alice bob aliceEph bobEph 1000 1000 .udp init freshOffer.resp kc ∧
      ∀ second, Derives (Symbolic.leaked 1000 1000) (.half second (Symbolic.session .udp)) := by
  obtain ⟨init, kc, h⟩ := fresh_udpCompleted
  exact ⟨init, kc, h, (session_keys_derivable freshSsl alice bob aliceEph bobEph 1000 1000 .udp init _ kc h).2.1⟩

end AegisTunnel
