import AegisTunnel.Theorems.ModeCommon
import AegisTunnel.UdpHandshake

/-! Agreement of the datagram handshake: when the datagrams arrive one by one, the server finds the first
    peer with the client's key and both sides end with the same keys crossed over. -/

namespace AegisTunnel
open Octets

/-! ### Messages -/

section Messages
variable {b b' : Backend} {epk : Word 32} {ts : Int64} {key : Block}

/-- Both transports send the same bytes. -/
theorem udpHsBuild_eq : udpHsBuild b epk ts key = asymWire b epk ts key := rfl

@[simp] theorem length_udpHsBuild : (udpHsBuild b epk ts key).length = 60 := by
  simp [udpHsBuild]

theorem getD_udpHsBuild : (udpHsBuild b epk ts key).getD 0 0 = frameHandshake := rfl

theorem drop_four_udpHsBuild : load 32 ((udpHsBuild b epk ts key).drop 4) = epk := by
  rw [udpHsBuild_eq, asymWire_eq, List.append_assoc, List.drop_left' (by rfl), load_toList_append]

/-- A message parsed with any key: what counts is how its timestamp decrypts. -/
theorem udpHsParse_eq (key' : Block) :
    udpHsParse b' (udpHsBuild b epk ts key) key' =
      (let r := aegisPureDecrypt ((asymBody b epk ts key).take 8) (asymHeader ++ epk.toList) (Word.zero 16) key'
        (load 16 ((asymBody b epk ts key).drop 8))
      if r.ret ≠ 0 then none else some (epk, bytesTs r.dst)) := by
  have hhdr : (asymHeader ++ epk.toList).length = 36 := by simp [asymHeader]
  have htake : (udpHsBuild b epk ts key).take 4 = asymHeader := rfl
  have hbody : (udpHsBuild b epk ts key).drop 36 = asymBody b epk ts key := by
    rw [udpHsBuild_eq, asymWire_eq, List.drop_left' hhdr]
  have htag : (udpHsBuild b epk ts key).drop 44 = (asymBody b epk ts key).drop 8 := by
    rw [← hbody, List.drop_drop]
  rw [udpHsParse, if_neg (not_not_intro getD_udpHsBuild), drop_four_udpHsBuild, htake, hbody, htag]
  simp only [aegisDecrypt_eq]

theorem udpHsParse_udpHsBuild : udpHsParse b' (udpHsBuild b epk ts key) key = some (epk, ts) := by
  have hct : (aegisPureEncrypt (tsBytes ts) (asymHeader ++ epk.toList) (Word.zero 16) key).1.length = 8 := by simp
  rw [udpHsParse_eq]
  simp only [asymBody, aegisEncrypt_eq]
  rw [List.take_left' hct, List.drop_left' hct, load_toList, aegisPureDecrypt_encrypt]
  simp [bytesTs_tsBytes]

theorem udpConfirm_eq : frameBuild b frameKeyconfirm 0 [] 0 key = some (udpConfirm b key) := by
  rw [udpConfirm, frameBuild_of_le (Nat.zero_le _)]
  rfl

theorem length_udpConfirm : (udpConfirm b key).length = 20 :=
  (length_frameBuild udpConfirm_eq).2

theorem udpConfirmed_udpConfirm : udpConfirmed b' key (udpConfirm b key) = true := by
  have htake : (udpConfirm b key).take (frameHeaderLen + aegisTagLen) = udpConfirm b key :=
    List.take_of_length_le length_udpConfirm.le
  have hlen : (udpConfirm b key).length ≥ frameHeaderLen + aegisTagLen := length_udpConfirm.ge
  simp only [udpConfirmed, htake]
  rw [if_pos hlen, frameParse_frameBuild udpConfirm_eq]
  rfl

/-- A handshake message is not taken for a confirmation: it announces eight bytes where there are none. -/
theorem udpConfirmed_udpHsBuild (key' : Block) : udpConfirmed b' key' (udpHsBuild b epk ts key) = false := by
  have hlen : ((udpHsBuild b epk ts key).take (frameHeaderLen + aegisTagLen)).length = 20 := by
    rw [List.length_take, length_udpHsBuild]
    rfl
  have hpl : headerPayloadLen ((udpHsBuild b epk ts key).take (frameHeaderLen + aegisTagLen)) = 8 := by
    simp [headerPayloadLen, udpHsBuild, frameHeaderLen, aegisTagLen]
  have hparse : frameParse b' ((udpHsBuild b epk ts key).take (frameHeaderLen + aegisTagLen)) 0 key' = .malformed := by
    by_contra h
    have := frameParse_length h
    rw [hlen, hpl] at this
    exact absurd this (by decide)
  simp only [udpConfirmed, hparse]
  split <;> rfl

end Messages

theorem udpWindow_ok {w : World} {n ts : Int64} {cl : List Int64} (hclock : w.clock = n :: cl) (hn : 0 ≤ n)
    (hwindow : |n.toInt - ts.toInt| ≤ 60) : udpWindow ts w = (some (), { w with clock := cl }) := by
  have hnow : timestampNow w = (some n, { w with clock := cl }) :=
    timestampNow_some hclock
  have hdist : ¬ (if n > ts then n - ts else ts - n) > 60 := window_dist hwindow
  rw [udpWindow, Run.bind_some hnow, if_neg (Int64.not_lt.mpr hn), if_neg hdist]
  rfl

/-! ### The server -/

/-- The offer that the server makes with the shared secret `sh`. -/
def offerOf (lib : OpenSsl) (b : Backend) (pi : Nat) (epk : Word 32) (ts : Int64) (sh : Word 32) : UdpOffer where
  peer := pi
  keys := { decKey := firstHalf (udpSess lib sh), encKey := secondHalf (udpSess lib sh) }
  resp := udpHsBuild b epk ts (asymResp lib sh)
  confirm := udpConfirm b (secondHalf (udpSess lib sh))

/-- Whatever the buffer for the static secret holds after `ecdh_derive` for the key `p`, the datagram does
    not decrypt with it. -/
def UdpWrongKey (lib : OpenSsl) (b : Backend) (asymPriv : Word 32) (dgram : Octets) (ee p : Word 32) : Prop :=
  ∀ (w : World) (es : Word 32), (deriveInto lib asymPriv p w).1 = some es → udpHsParse b dgram (initKey lib ee es) = none

section Server
variable {lib : OpenSsl} {b b' : Backend} {e : KeyPair} {k p ee es se iepk : Word 32} {its ns ts : Int64} {w : World}
  {ks : List (Option KeyPair)} {cl : List Int64} {dgram : Octets}

theorem udpAnswer_wrongKey (pi : Nat) (hee : ecdhDerive lib k (load 32 (dgram.drop 4)) = some ee)
    (hwrong : UdpWrongKey lib b k dgram ee p) (w : World) :
    ∃ q, udpAnswer lib b k dgram pi p w = (none, { w with stack := q }) := by
  have hes := deriveInto_eq lib k p w
  refine ⟨(derived lib k p w.stack).2, ?_⟩
  rw [udpAnswer, Run.bind_some (deriveInto_some hee _), Run.bind_some hes, hwrong w _ (by rw [hes])]
  rfl

theorem Fills.getD {stack : List (Word 32)} (h : Fills lib stack k p ee) : (ecdhDerive lib k p).getD ee = ee := by
  cases hd : ecdhDerive lib k p with
  | none => rfl
  | some s =>
    simp only [Fills, derived, hd, Prod.mk.injEq, and_true] at h
    exact h

theorem udpAnswer_ok (pi : Nat) (hparse : udpHsParse b dgram (initKey lib ee es) = some (iepk, its))
    (hee : Fills lib w.stack k (load 32 (dgram.drop 4)) ee) (hes : Fills lib w.stack k p es)
    (hse : Fills lib w.stack e.priv p se) (hkeygen : w.keygens = some e :: ks) (hclock : w.clock = ns :: ts :: cl)
    (hnow : 0 ≤ ns) (hwindow : |ns.toInt - its.toInt| ≤ 60) :
    udpAnswer lib b k dgram pi p w =
      (some (offerOf lib b pi e.pub ts (asymShared lib ee es se)), { w with clock := cl, keygens := ks }) := by
  have hgen : ecdhKeygen { w with clock := ts :: cl } = (some e, { w with clock := ts :: cl, keygens := ks }) :=
    ecdhKeygen_some hkeygen
  let w₂ : World := { w with clock := ts :: cl, keygens := ks }
  rw [udpAnswer, Run.bind_some (hee.deriveInto w rfl), Run.bind_some (hes.deriveInto w rfl), hparse]
  dsimp only
  rw [Run.bind_some (udpWindow_ok hclock hnow hwindow), Run.bind_some hgen, hee.getD,
    Run.bind_some (hes.deriveInto w₂ rfl), Run.bind_some (hse.deriveInto w₂ rfl)]
  rfl

/-- The server passes over the peers whose keys do not fit and answers for the first one that does. -/
theorem udpTryPeers_ok (pi : Nat) (before after : List (Word 32))
    (hwrong : ∀ q ∈ before, UdpWrongKey lib b k dgram ee q)
    (hparse : udpHsParse b dgram (initKey lib ee es) = some (iepk, its))
    (hee : ecdhDerive lib k (load 32 (dgram.drop 4)) = some ee) (hes : ecdhDerive lib k p = some es)
    (hse : ecdhDerive lib e.priv p = some se) (hkeygen : w.keygens = some e :: ks) (hclock : w.clock = ns :: ts :: cl)
    (hnow : 0 ≤ ns) (hwindow : |ns.toInt - its.toInt| ≤ 60) :
    (udpTryPeers lib b k dgram pi (before ++ p :: after) w).1 =
      some (offerOf lib b (pi + before.length) e.pub ts (asymShared lib ee es se)) := by
  induction before generalizing pi w with
  | nil =>
    have hok := udpAnswer_ok pi hparse (.of_derive hee _) (.of_derive hes _) (.of_derive hse _) hkeygen hclock hnow hwindow
    rw [List.nil_append, udpTryPeers, Run.orElse_some hok]
    rfl
  | cons q before ih =>
    obtain ⟨st, hfail⟩ := udpAnswer_wrongKey pi hee (hwrong q (List.mem_cons_self ..)) w
    rw [List.cons_append, udpTryPeers, Run.orElse_none hfail]
    have hrest := ih (w := { w with stack := st }) (pi + 1) (fun r hr => hwrong r (List.mem_cons_of_mem _ hr)) hkeygen
      hclock
    rw [hrest, List.length_cons, Nat.add_assoc pi, Nat.add_comm 1]

end Server

/-! ### The client -/

section Client
variable {lib : OpenSsl} {b b' : Backend} {e : KeyPair} {k p ee es se repk : Word 32} {tc nc rts : Int64}
  {c : UdpClient} {ks : List (Option KeyPair)} {cl : List Int64} {rest : List (Option Octets)}

theorem onHost_some {α : Type} {x : Hs α} {a : α} {w : World} (h : x c.host = (some a, w)) :
    onHost x c = (some a, { c with host := w }) := Run.zoom_eq h

theorem udpSend_ok (hsends : ∀ k ∈ c.sends, k = true) (d : Octets) :
    ∃ q, udpSend d c = (some (), { c with sent := c.sent ++ [d], sends := q }) ∧ ∀ k ∈ q, k = true := by
  unfold udpSend
  split
  next => exact ⟨c.sends, rfl, hsends⟩
  next q h => exact ⟨q, rfl, fun k hk => hsends k (by rw [h]; exact List.mem_cons_of_mem _ hk)⟩
  next q h => exact absurd (hsends false (by rw [h]; exact List.mem_cons_self ..)) (by decide)

theorem udpRecv_some {n : Nat} {d : Octets} (hdgrams : c.dgrams = some d :: rest) (hd : d.length = n) :
    udpRecv n c = (some d, { c with dgrams := rest }) := by
  simp only [udpRecv, hdgrams, List.take_of_length_le hd.le]

/-- `udp_handshake_client` after its first datagram is sent. -/
def udpClientFinish (lib : OpenSsl) (b : Backend) (e : KeyPair) (asymPriv peer : Word 32) : UdpHs SessionKeys := do
  let dgram ← udpRecv udpHsDgram
  if dgram.length < udpHsDgram then Run.fail
  else
    let repk : Word 32 := load 32 (dgram.drop 4)
    let ee ← onHost (deriveInto lib e.priv peer)
    let es ← onHost (deriveInto lib asymPriv peer)
    let se ← onHost (deriveInto lib asymPriv repk)
    let sh := asymShared lib ee es se
    match udpHsParse b dgram (asymResp lib sh) with
    | none => Run.fail
    | some (_, rts) =>
      onHost (udpWindow rts)
      let h := udpSess lib sh
      udpClientConfirm b { encKey := firstHalf h, decKey := secondHalf h }

theorem udpHandshakeClient_start (b : Backend) (hkeygen : c.host.keygens = some e :: ks) (hclock : c.host.clock = tc :: cl)
    (hee : Fills lib c.host.stack e.priv p ee) (hes : Fills lib c.host.stack k p es) (hsends : ∀ k ∈ c.sends, k = true) :
    ∃ q, udpHandshakeClient lib b k p c = udpClientFinish lib b e k p { c with
        host := { c.host with keygens := ks, clock := cl }
        sent := c.sent ++ [udpHsBuild b e.pub tc (initKey lib ee es)]
        sends := q } ∧ ∀ k ∈ q, k = true := by
  have hgen : ecdhKeygen c.host = (some e, { c.host with keygens := ks }) := ecdhKeygen_some hkeygen
  have hnow : timestampNow { c.host with keygens := ks } =
      (some tc, { c.host with keygens := ks, clock := cl }) :=
    timestampNow_some hclock
  obtain ⟨q, hsend, hq⟩ := udpSend_ok (c := { c with host := { c.host with keygens := ks, clock := cl } }) hsends
    (udpHsBuild b e.pub tc (initKey lib ee es))
  refine ⟨q, ?_, hq⟩
  let c₁ : UdpClient := { c with host := { c.host with keygens := ks } }
  rw [udpHandshakeClient, Run.bind_some (onHost_some hgen), Run.bind_some (onHost_some (hee.deriveInto c₁.host rfl)),
    Run.bind_some (onHost_some (hes.deriveInto c₁.host rfl)), Run.bind_some (onHost_some hnow)]
  exact Run.bind_some hsend

theorem udpClientFinish_ok (b : Backend)
    (hdgrams : c.dgrams = some (udpHsBuild b' repk rts (asymResp lib (asymShared lib ee es se))) ::
      some (udpConfirm b' (secondHalf (udpSess lib (asymShared lib ee es se)))) :: rest)
    (hee : Fills lib c.host.stack e.priv p ee) (hes : Fills lib c.host.stack k p es)
    (hse : Fills lib c.host.stack k repk se) (hclock : c.host.clock = nc :: cl) (hnow : 0 ≤ nc)
    (hwindow : |nc.toInt - rts.toInt| ≤ 60) (hsends : ∀ k ∈ c.sends, k = true) :
    ∃ c', udpClientFinish lib b e k p c =
        (some ⟨firstHalf (udpSess lib (asymShared lib ee es se)), secondHalf (udpSess lib (asymShared lib ee es se))⟩, c') ∧
      c'.sent = c.sent ++ [udpConfirm b (firstHalf (udpSess lib (asymShared lib ee es se)))] := by
  generalize hsh : asymShared lib ee es se = sh at *
  generalize hresp : udpHsBuild b' repk rts (asymResp lib sh) = resp at hdgrams
  generalize hconf : udpConfirm b' (secondHalf (udpSess lib sh)) = conf at hdgrams
  have hlen : resp.length = 60 := by rw [← hresp, length_udpHsBuild]
  have hlen' : conf.length = 20 := by rw [← hconf, length_udpConfirm]
  have hrecv : udpRecv udpHsDgram c = (some resp, { c with dgrams := some conf :: rest }) := udpRecv_some hdgrams hlen
  have hwin : onHost (udpWindow rts) { c with dgrams := some conf :: rest } =
      (some (), { c with dgrams := some conf :: rest, host := { c.host with clock := cl } }) :=
    onHost_some (c := { c with dgrams := some conf :: rest }) (udpWindow_ok hclock hnow hwindow)
  have hrecv' : udpRecv (frameHeaderLen + aegisTagLen)
      { c with dgrams := some conf :: rest, host := { c.host with clock := cl } } =
      (some conf, { c with host := { c.host with clock := cl }, dgrams := rest }) := udpRecv_some rfl hlen'
  obtain ⟨q, hsend, -⟩ := udpSend_ok (c := { c with host := { c.host with clock := cl }, dgrams := rest }) hsends
    (udpConfirm b (firstHalf (udpSess lib sh)))
  refine ⟨{ c with host := { c.host with clock := cl }, dgrams := rest, sent := _, sends := q }, ?_, rfl⟩
  let c₁ : UdpClient := { c with dgrams := some conf :: rest }
  rw [udpClientFinish, Run.bind_some hrecv, if_neg (by rw [hlen]; decide), ← hresp, drop_four_udpHsBuild,
    Run.bind_some (onHost_some (c := c₁) (hee.deriveInto c₁.host rfl)),
    Run.bind_some (onHost_some (c := c₁) (hes.deriveInto c₁.host rfl)),
    Run.bind_some (onHost_some (c := c₁) (hse.deriveInto c₁.host rfl))]
  dsimp only
  rw [hsh, udpHsParse_udpHsBuild]
  dsimp only
  rw [Run.bind_some hwin, udpClientConfirm, Run.bind_some hrecv', if_pos (by rw [← hconf]; exact udpConfirmed_udpConfirm)]
  exact Run.bind_some hsend

end Client

/-! ### What the client has sent -/

/-- What was sent before is the beginning of what is sent after. -/
def SentGrows (c c' : UdpClient) : Prop := c.sent <+: c'.sent

instance : Std.Refl SentGrows := ⟨fun c => List.prefix_refl c.sent⟩

instance : IsTrans UdpClient SentGrows := ⟨fun _ _ _ => List.IsPrefix.trans⟩

theorem sentGrows_onHost {α : Type} (x : Hs α) : Run.Moves SentGrows (onHost x) := fun c => List.prefix_refl c.sent

theorem sentGrows_udpRecv (n : Nat) : Run.Moves SentGrows (udpRecv n) := fun c => by
  unfold udpRecv
  split <;> exact List.prefix_refl c.sent

theorem sentGrows_udpSend (d : Octets) : Run.Moves SentGrows (udpSend d) := fun c => by
  unfold udpSend
  split
  · exact List.prefix_append ..
  · exact List.prefix_append ..
  · exact List.prefix_refl c.sent

theorem sentGrows_udpClientConfirm (b : Backend) (keys : SessionKeys) :
    Run.Moves SentGrows (udpClientConfirm b keys) := by
  refine Run.moves_bind (sentGrows_udpRecv _) fun kw => ?_
  split
  · exact Run.moves_bind (sentGrows_udpSend _) fun _ => Run.moves_pure _
  · exact Run.moves_fail

theorem sentGrows_udpClientFinish (lib : OpenSsl) (b : Backend) (e : KeyPair) (k p : Word 32) :
    Run.Moves SentGrows (udpClientFinish lib b e k p) := by
  refine Run.moves_bind (sentGrows_udpRecv _) fun dgram => ?_
  split
  · exact Run.moves_fail
  · refine Run.moves_bind (sentGrows_onHost _) fun ee => Run.moves_bind (sentGrows_onHost _) fun es => ?_
    refine Run.moves_bind (sentGrows_onHost _) fun se => ?_
    dsimp only
    split
    · exact Run.moves_fail
    · exact Run.moves_bind (sentGrows_onHost _) fun _ => sentGrows_udpClientConfirm b _

/-! ### Both sides together -/

/-- A client and a server that can complete a handshake: their ephemeral keys `ce` and `se`, the client's
    timestamp `tc` and the server's `ts`, and the clocks `nc` and `ns` when the other's is checked. -/
structure UdpMeeting (lib : OpenSsl) (client server ce se : KeyPair) (tc nc ns ts : Int64) (c : UdpClient) (ws : World) :
    Prop where
  clientKeygen : ∃ ks, c.host.keygens = some ce :: ks
  serverKeygen : ∃ ks, ws.keygens = some se :: ks
  clientClock : ∃ cl, c.host.clock = tc :: nc :: cl
  serverClock : ∃ cl, ws.clock = ns :: ts :: cl
  clientNow : 0 ≤ nc
  serverNow : 0 ≤ ns
  clientWindow : |nc.toInt - ts.toInt| ≤ 60
  serverWindow : |ns.toInt - tc.toInt| ≤ 60
  clientSends : ∀ k ∈ c.sends, k = true
  ephStatic : Agree lib ce server
  staticStatic : Agree lib client server
  staticEph : Agree lib client se
  clientSilent : c.sent = []

namespace UdpMeeting
variable {lib : OpenSsl} {client server ce se : KeyPair} {tc nc ns ts : Int64} {c : UdpClient} {ws : World}

theorem client_init (meet : UdpMeeting lib client server ce se tc nc ns ts c ws) (bc : Backend) {ee es : Word 32}
    (hee : ecdhDerive lib ce.priv server.pub = some ee) (hes : ecdhDerive lib client.priv server.pub = some es) :
    (udpHandshakeClient lib bc client.priv server.pub c).2.sent.head? =
      some (udpHsBuild bc ce.pub tc (initKey lib ee es)) := by
  obtain ⟨ks, hkeygen⟩ := meet.clientKeygen
  obtain ⟨cl, hclock⟩ := meet.clientClock
  obtain ⟨q, hstart, -⟩ := udpHandshakeClient_start bc hkeygen hclock (.of_derive hee _) (.of_derive hes _)
    meet.clientSends
  obtain ⟨later, hlater⟩ := sentGrows_udpClientFinish lib bc ce client.priv server.pub
    { c with host := { c.host with keygens := ks, clock := nc :: cl }, sent := c.sent ++ [_], sends := q }
  rw [hstart, ← hlater, meet.clientSilent]
  rfl

/-- The server that gets the client's first datagram makes an offer for the first peer with the client's
    key, and the client that gets this offer confirms it and has the server's keys crossed over. -/
theorem agree (meet : UdpMeeting lib client server ce se tc nc ns ts c ws) (bc bs : Backend) {peers : List (Word 32)}
    (known : client.pub ∈ peers)
    (wrongKey : ∀ p ∈ peers, p ≠ client.pub → ∀ ee es, ecdhDerive lib ce.priv server.pub = some ee →
      ecdhDerive lib client.priv server.pub = some es →
      UdpWrongKey lib bs server.priv (udpHsBuild bc ce.pub tc (initKey lib ee es)) ee p) :
    ∃ init offer, (udpHandshakeClient lib bc client.priv server.pub c).2.sent.head? = some init ∧ init.length = 60 ∧
      init.getD 0 0 = frameHandshake ∧
      (udpTryPeers lib bs server.priv init 0 peers ws).1 = some offer ∧
      IsLeast { j | peers[j]? = some client.pub } offer.peer ∧
      ∀ rest, c.dgrams = some offer.resp :: some offer.confirm :: rest →
        ∃ kc confirm, (udpHandshakeClient lib bc client.priv server.pub c).1 = some kc ∧
          (udpHandshakeClient lib bc client.priv server.pub c).2.sent = [init, confirm] ∧
          udpConfirmed bs offer.keys.decKey confirm = true ∧ kc.encKey = offer.keys.decKey ∧
          kc.decKey = offer.keys.encKey := by
  obtain ⟨ee, hce, hsc⟩ := meet.ephStatic.derive
  obtain ⟨es, hcs, hss⟩ := meet.staticStatic.derive
  obtain ⟨sec, hcse, hsec⟩ := meet.staticEph.derive
  obtain ⟨ks, hckeygen⟩ := meet.clientKeygen
  obtain ⟨cl, hcclock⟩ := meet.clientClock
  obtain ⟨ks', hskeygen⟩ := meet.serverKeygen
  obtain ⟨cl', hsclock⟩ := meet.serverClock
  obtain ⟨q, hstart, hq⟩ := udpHandshakeClient_start bc hckeygen hcclock (.of_derive hce _) (.of_derive hcs _)
    meet.clientSends
  rw [meet.clientSilent, List.nil_append] at hstart
  generalize hinit : udpHsBuild bc ce.pub tc (initKey lib ee es) = init at hstart
  -- The peers before the first one with the client's key all have other keys.
  obtain ⟨before, after, rfl, hbefore⟩ := List.eq_append_cons_of_mem known
  have hwrong : ∀ p ∈ before, UdpWrongKey lib bs server.priv init ee p := by
    intro p hp
    rw [← hinit]
    exact wrongKey p (List.mem_append_left _ hp) (fun h => hbefore (h ▸ hp)) ee es hce hcs
  have htry := udpTryPeers_ok (b := bs) 0 before after hwrong (by rw [← hinit]; exact udpHsParse_udpHsBuild)
    (by rw [← hinit, drop_four_udpHsBuild]; exact hsc) hss hsec hskeygen hsclock meet.serverNow meet.serverWindow
  refine ⟨init, _, hinit ▸ meet.client_init bc hce hcs, ?_, ?_, htry, ?_, fun rest hdgrams => ?_⟩
  · rw [← hinit, length_udpHsBuild]
  · rw [← hinit, getD_udpHsBuild]
  · refine ⟨by simp [offerOf], fun j hj => ?_⟩
    have hj : (before ++ client.pub :: after)[j]? = some client.pub := hj
    show 0 + before.length ≤ j
    by_contra hlt
    rw [List.getElem?_append_left (by omega)] at hj
    exact hbefore (List.mem_of_getElem? hj)
  · obtain ⟨c', hdone, hsent⟩ := udpClientFinish_ok (c := { c with
      host := { c.host with keygens := ks, clock := nc :: cl }, sent := [init], sends := q }) bc hdgrams (.of_derive hce _)
      (.of_derive hcs _) (.of_derive hcse _) rfl meet.clientNow meet.clientWindow hq
    rw [hstart, hdone]
    exact ⟨_, _, rfl, hsent, udpConfirmed_udpConfirm, rfl, rfl⟩

end UdpMeeting

/-! ### An instance

Bob's server again, with Carol and Alice as its peers. Each client uses its key pair also as its ephemeral
one, and so does Bob. -/

/-- The digests of the two handshakes that differ from those over TCP, and Carol's. -/
def aliceBobUdpSession : Word 32 := word32 0x93cc728abf7a5d3124824902c8c8b4a00bc588ecd8fe4e3053ad1f2be89baa9b
def carolBobInit : Word 32 := word32 0x28f704e547e81c6d04b3270c55b939b768fcd13b003fe9deccdebb1de1094838
def carolBobShared : Word 32 := word32 0x49d81503e45cda05b8ae9e2fcae8138713c699f9776d63785b2825493f8f0621
def carolBobResp : Word 32 := word32 0x5d5ae44e65ecc8b76393a510d4742780c86a4753ccb46374d1eec351d3e4de93
def carolBobUdpSession : Word 32 := word32 0x5ca7f18248e0890224ef352cbbc8ba9dc722cd25d6c9136791cdb9ed382e99ab

def udpSsl : OpenSsl where
  x25519 := twoPeersSsl.x25519
  sha256 l :=
    let s := bobCarolHash.toList
    if l = aliceBobShared.toList ++ sessionLabel then aliceBobUdpSession
    else if l = s ++ s ++ initLabel then carolBobInit
    else if l = s ++ s ++ s ++ sharedLabel then carolBobShared
    else if l = carolBobShared.toList ++ respLabel then carolBobResp
    else if l = carolBobShared.toList ++ sessionLabel then carolBobUdpSession
    else twoPeersSsl.sha256 l

theorem udpSsl_alice_bob : ecdhDerive udpSsl alice.priv bob.pub = some aliceBobHash := by decide

theorem udpSsl_bob_alice : ecdhDerive udpSsl bob.priv alice.pub = some aliceBobHash := by decide

theorem udpSsl_bob_carol : ecdhDerive udpSsl bob.priv carolPub = some bobCarolHash := by decide

/-- Bob's host at the second `now`. -/
def bobHost (now : Int64) : World := { partyWorld bob [] with clock := [now, now] }

theorem bobHost_keygens (now : Int64) : (bobHost now).keygens = some bob :: [] := rfl

theorem bobHost_clock (now : Int64) : (bobHost now).clock = now :: now :: [] := rfl

/-- The first datagram of a client at the second `now`, whose secret with Bob has the digest `s`. -/
def clientInit (epk s : Word 32) (now : Int64) : Octets := udpHsBuild .pureC epk now (initKey udpSsl s s)

/-- Bob's offer to it. -/
def bobOffer (pi : Nat) (s : Word 32) (now : Int64) : UdpOffer :=
  offerOf udpSsl .pureC pi bob.pub now (asymShared udpSsl s s s)

/-- Bob makes his offer at any time to a peer whose key he has first. -/
theorem bob_offers {p s : Word 32} (hs : ecdhDerive udpSsl bob.priv p = some s) {now : Int64} (hnow : 0 ≤ now)
    (after : List (Word 32)) :
    (udpTryPeers udpSsl .pureC bob.priv (clientInit p s now) 0 (p :: after) (bobHost now)).1 =
      some (bobOffer 0 s now) :=
  udpTryPeers_ok 0 [] after (fun _ h => nomatch h) udpHsParse_udpHsBuild
    (by rw [clientInit, drop_four_udpHsBuild]; exact hs) hs hs (bobHost_keygens now) (bobHost_clock now) hnow (by simp)

theorem carol_wrongKey : UdpWrongKey udpSsl .pureC bob.priv (clientInit alice.pub aliceBobHash 1000) aliceBobHash carolPub := by
  intro w es hes
  have hkey : initKey udpSsl aliceBobHash bobCarolHash = firstHalf bobCarolInit := by decide
  have hkey' : initKey udpSsl aliceBobHash aliceBobHash = firstHalf aliceBobInit := by decide
  rw [deriveInto_some udpSsl_bob_carol] at hes
  cases hes
  rw [clientInit, udpHsParse_eq, hkey, hkey']
  exact if_pos carolKey_rejects

/-- Behind Carol's key, Alice is still found. -/
theorem bob_offers_second :
    (udpTryPeers udpSsl .pureC bob.priv (clientInit alice.pub aliceBobHash 1000) 0 [carolPub, alice.pub] (bobHost 1000)).1 =
      some (bobOffer 1 aliceBobHash 1000) :=
  udpTryPeers_ok 0 [carolPub] [] (fun _ h => List.mem_singleton.mp h ▸ carol_wrongKey)
    udpHsParse_udpHsBuild (by rw [clientInit, drop_four_udpHsBuild]; exact udpSsl_bob_alice) udpSsl_bob_alice
    udpSsl_bob_alice (bobHost_keygens 1000) (bobHost_clock 1000) (by decide) (by decide)

end AegisTunnel
