import AegisTunnel.ModeCommon
import AegisTunnel.Theorems.Handshake

/-! The rate limit, and which configured peers can connect. A failed attempt has consumed the client's message, so the
    attempts after it find nothing to read: only the first peer key is ever matched against it. -/

namespace AegisTunnel
open Octets

/-! ### The rate limit -/

/-- Each window in use started at one of the times. -/
def RateTable.StartedIn (t : RateTable) (times : Int64 → Prop) : Prop :=
  ∀ i, (t.slots.get i).ip ≠ [] → times (t.slots.get i).windowStart

theorem rateInit_startedIn (times : Int64 → Prop) : rateInit.StartedIn times := by
  intro i h
  exact absurd (by simp [rateInit]) h

theorem RateTable.slotOf_eq_some {t : RateTable} {ip : List Char} {i : Fin rateMaxIps} (h : t.slotOf ip = some i) :
    (t.slots.get i).ip = ip ∧ ip ≠ [] := by
  have hi := List.find?_some h
  simp only [ne_eq, decide_not, Bool.and_eq_true, Bool.not_eq_true', decide_eq_false_iff_not, beq_iff_eq] at hi
  exact ⟨hi.2, hi.2 ▸ hi.1⟩

theorem RateTable.StartedIn.set {t : RateTable} {times : Int64 → Prop} (h : t.StartedIn times) (i : Fin rateMaxIps)
    (e : RateEntry) (he : e.ip ≠ [] → times e.windowStart) (next : Fin rateMaxIps) :
    RateTable.StartedIn ⟨t.slots.set i e, next⟩ times := by
  intro j hj
  by_cases hij : i = j
  · subst hij
    rw [List.Vector.get_set_same] at hj ⊢
    exact he hj
  · rw [List.Vector.get_set_of_ne hij] at hj ⊢
    exact h j hj

/-- When every window in use is over, an address is admitted. -/
theorem handshakeRateCheck_over (ip : List Char) (now : Int64) {t : RateTable} {times : Int64 → Prop}
    (h : t.StartedIn times) (ended : ∀ start, times start → now - start > rateWindowSec) :
    (handshakeRateCheck ip now t).1 = true ∧
      (handshakeRateCheck ip now t).2.StartedIn fun start => times start ∨ start = now := by
  have hweak : t.StartedIn fun start => times start ∨ start = now := fun i hi => .inl (h i hi)
  unfold handshakeRateCheck
  cases hslot : t.slotOf ip with
  | some i =>
    obtain ⟨hip, hne⟩ := RateTable.slotOf_eq_some hslot
    have hover : now - (t.slots.get i).windowStart > rateWindowSec := ended _ (h i (by rw [hip]; exact hne))
    dsimp only
    rw [if_pos hover]
    exact ⟨rfl, hweak.set i _ (fun _ => .inr rfl) t.nextSlot⟩
  | none => exact ⟨rfl, hweak.set t.nextSlot _ (fun _ => .inr rfl) _⟩

theorem rateInit_admits (ip : List Char) (now : Int64) : (handshakeRateCheck ip now rateInit).1 = true :=
  (handshakeRateCheck_over ip now (rateInit_startedIn fun _ => False) fun _ h => h.elim).1

/-! ### A queue that runs dry -/

theorem recvLoop_short {n : Nat} (got m : Octets) {q : List PollRecv} (hn : got.length + m.length < n)
    (h : arriving q = some m) : recvLoop n got q = (none, []) := by
  induction q generalizing got m with
  | nil =>
    rw [recvLoop, if_pos (by omega)]
  | cons k q ih =>
    rw [recvLoop, if_pos (by omega)]
    cases k with
    | pollEintr => exact ih got m hn h
    | pollError => cases h
    | timeout => cases h
    | hangup => cases h
    | ready k =>
      cases k with
      | eintr => exact ih got m hn h
      | eof => cases h
      | again => cases h
      | error => cases h
      | data c cs =>
        obtain ⟨a, ha, rfl⟩ : ∃ a, arriving q = some a ∧ (c :: cs) ++ a = m := by simpa [arriving] using h
        rw [List.length_append] at hn
        have hleft : (c :: cs).drop (n - got.length) = [] := List.drop_eq_nil_iff.mpr (by omega)
        have htake : (c :: cs).take (n - got.length) = c :: cs := List.take_of_length_le (by omega)
        simp only [recvAllRound, PollRecv.left, hleft, htake]
        exact ih _ a (by rw [List.length_append]; omega) ha

theorem handshakeServer_dry (lib : OpenSsl) (b : Backend) (k p : Word 32) {w : World} (h : arriving w.inbox = some []) :
    handshakeServer lib b k p w = (none, { w with inbox := [] }) := by
  have hrecv : recvAll 36 w = (none, { w with inbox := [] }) := by
    rw [recvAll, recvLoop_short [] [] (by decide) h]
  have hhdr : asymHdr w = (none, { w with inbox := [] }) := Run.bind_none hrecv
  exact Run.bind_none hhdr

theorem tryPeers_dry (lib : OpenSsl) (b : Backend) (k : Word 32) (i : Nat) (peers : List (Word 32)) {w : World}
    (h : arriving w.inbox = some []) : (tryPeers lib b k i peers w).1 = none := by
  induction peers generalizing i w with
  | nil => rfl
  | cons p peers ih =>
    rw [tryPeers, Run.orElse_none (Run.bind_none (handshakeServer_dry lib b k p h))]
    exact ih (i + 1) rfl

/-! ### A list of peers -/

section Peers
variable {lib : OpenSsl} {b : Backend} {k : Word 32}

theorem tryPeers_first (i : Nat) (peers : List (Word 32)) {p : Word 32} {keys : SessionKeys} {w w' : World}
    (h : handshakeServer lib b k p w = (some keys, w')) :
    tryPeers lib b k i (p :: peers) w = (some (i, keys), w') := by
  rw [tryPeers]
  exact Run.orElse_some ((Run.bind_some h).trans (Run.pure_apply (i, keys) w'))

/-- Where the first peers fail, the attempts go on with the others. -/
theorem tryPeers_append {l : List (Word 32)} (l' : List (Word 32)) {i : Nat} {w w' : World}
    (h : tryPeers lib b k i l w = (none, w')) : tryPeers lib b k i (l ++ l') w = tryPeers lib b k (i + l.length) l' w' := by
  induction l generalizing i w with
  | nil => cases h; rfl
  | cons p l ih =>
    rw [List.cons_append, tryPeers]
    rw [tryPeers] at h
    cases hp : (do let keys ← handshakeServer lib b k p; pure (i, keys) : Hs (Nat × SessionKeys)) w with
    | mk o w₁ =>
      cases o with
      | some a =>
        rw [Run.orElse_some hp] at h
        cases h
      | none =>
        rw [Run.orElse_none hp] at h ⊢
        rw [ih h, List.length_cons]
        congr 1
        omega

theorem returns_tryPeers (l : List (Word 32)) (i n : Nat) (h : n ≤ i) :
    Run.Returns (fun r => n ≤ r.1) (tryPeers lib b k i l) := by
  induction l generalizing i with
  | nil => exact Run.returns_fail
  | cons p l ih => exact Run.returns_orElse (Run.returns_bind fun keys => Run.returns_pure h) (ih (i + 1) (by omega))

end Peers

/-! ### The wrong key -/

/-- The key of `p` does not decrypt the message that `e` sends at `ts` under the key of `es`. -/
def WrongKey (lib : OpenSsl) (serverPriv : Word 32) (e : KeyPair) (ts : Int64) (b : Backend) (ee es p : Word 32) : Prop :=
  ∃ es', ecdhDerive lib serverPriv p = some es' ∧
    (aegisPureDecrypt ((asymBody b e.pub ts (initKey lib ee es)).take 8) (asymHeader ++ e.pub.toList) (Word.zero 16)
      (initKey lib ee es') (load 16 ((asymBody b e.pub ts (initKey lib ee es)).drop 8))).ret ≠ 0

theorem handshakeServer_wrongKey {lib : OpenSsl} {b : Backend} (b' : Backend) {k p ee es : Word 32} {e : KeyPair} {ts : Int64}
    {w : World} (hin : arriving w.inbox = some (asymWire b e.pub ts (initKey lib ee es)))
    (hee : ecdhDerive lib k e.pub = some ee) (hwrong : WrongKey lib k e ts b ee es p) :
    ∃ w', handshakeServer lib b' k p w = (none, w') ∧ arriving w'.inbox = some [] := by
  obtain ⟨es', hes, hdec⟩ := hwrong
  rw [asymWire_eq] at hin
  obtain ⟨q, hhdr, hq⟩ := asymHdr_arriving hin
  obtain ⟨q', hrecv, hq'⟩ := recvAll_arriving (n := 24) (w := { w with inbox := q }) (r := []) (length_asymBody ..)
    (by rw [List.append_nil]; exact hq)
  have hts : asymTs b' e.pub (initKey lib ee es') { w with inbox := q } = (none, { w with inbox := q' }) := by
    rw [asymTs_eq hrecv, aegisDecrypt_eq]
    dsimp only
    rw [if_pos hdec]
  refine ⟨{ w with inbox := q' }, ?_, hq'⟩
  rw [handshakeServer, Run.bind_some hhdr, Run.bind_some (deriveInto_some hee _), Run.bind_some (deriveInto_some hes _)]
  exact Run.bind_none hts

/-! ### Who can connect -/

/-- The server finds the client as the first peer with its key, and both hold crossed session keys. -/
def Connects (lib : OpenSsl) (bc bs : Backend) (client server : KeyPair) (peers : List (Word 32)) (wc ws : World) : Prop :=
  ∃ j kc ks, (tryHandshakeServer lib bs server.priv peers ws).1 = some (j, ks) ∧
    IsLeast { j | peers[j]? = some client.pub } j ∧
    (handshakeClient lib bc client.priv server.pub wc).1 = some kc ∧ kc.encKey = ks.decKey ∧ kc.decKey = ks.encKey

/-- Behind a first peer with another key, a client is not found. -/
theorem tryHandshakeServer_wrongKey {lib : OpenSsl} {bc : Backend} (bs : Backend) {client server ce se : KeyPair}
    {tc nc ns ts : Int64} {p : Word 32} (peers : List (Word 32)) {wc ws : World}
    (meet : Meeting lib client server ce se tc nc ns ts wc ws)
    (wrongKey : ∀ ee es, ecdhDerive lib ce.priv server.pub = some ee →
      ecdhDerive lib client.priv server.pub = some es → WrongKey lib server.priv ce tc bc ee es p)
    (toServer : arriving ws.inbox = some (handshakeClient lib bc client.priv server.pub wc).2.outbox) :
    (tryHandshakeServer lib bs server.priv (p :: peers) ws).1 = none := by
  obtain ⟨ee, hce, hsc⟩ := meet.ephStatic.derive
  obtain ⟨es, hcs, -⟩ := meet.staticStatic.derive
  rw [meet.client_outbox bc hce hcs] at toServer
  obtain ⟨w', hfail, hdry⟩ := handshakeServer_wrongKey bs toServer hsc (wrongKey ee es hce hcs)
  rw [tryHandshakeServer, tryPeers, Run.orElse_none (Run.bind_none hfail)]
  exact tryPeers_dry lib bs server.priv 1 peers hdry

/-- A configured peer can connect exactly when its key is that of the first configured peer. -/
theorem connects_iff (lib : OpenSsl) (bc bs : Backend) (client server ce se : KeyPair) (tc nc ns ts : Int64)
    (peers : List (Word 32)) (i : Nat) (wc ws : World) (hpeer : peers[i]? = some client.pub)
    (meet : Meeting lib client server ce se tc nc ns ts wc ws)
    (wrongKey : ∀ p ∈ peers, p ≠ client.pub → ∀ ee es, ecdhDerive lib ce.priv server.pub = some ee →
      ecdhDerive lib client.priv server.pub = some es → WrongKey lib server.priv ce tc bc ee es p)
    (toServer : arriving ws.inbox = some (handshakeClient lib bc client.priv server.pub wc).2.outbox)
    (toClient : ∃ r, arriving wc.inbox = some ((tryHandshakeServer lib bs server.priv peers ws).2.outbox ++ r)) :
    Connects lib bc bs client server peers wc ws ↔ peers[i]? = peers[0]? := by
  cases peers with
  | nil => cases hpeer
  | cons p peers =>
    rw [hpeer, List.getElem?_cons_zero, Option.some.injEq]
    constructor
    -- The first attempt reads the whole message, so behind a wrong first key nothing is left for the others.
    · rintro ⟨j, kc, ks, htry, -⟩
      by_contra hne
      have hnone := tryHandshakeServer_wrongKey bs peers meet
        (wrongKey p (List.mem_cons_self ..) (fun h => hne h.symm)) toServer
      cases hnone.symm.trans htry
    · rintro rfl
      rw [← List.append_nil (handshakeClient lib bc client.priv server.pub wc).2.outbox] at toServer
      obtain ⟨ks, ws', hserver, -, hclient⟩ := meet.server_ok bc bs toServer
      have htry : tryHandshakeServer lib bs server.priv (client.pub :: peers) ws = (some (0, ks), ws') :=
        tryPeers_first 0 peers hserver
      obtain ⟨r, hr⟩ := toClient
      rw [htry] at hr
      obtain ⟨kc, wc', hdone, henc, hdec, -⟩ := hclient r hr
      refine ⟨0, kc, ks, congrArg Prod.fst htry, ⟨rfl, fun j _ => Nat.zero_le j⟩, congrArg Prod.fst hdone, henc, hdec⟩

/-! ### An instance with two peers

Bob's server knows Carol and Alice, in this order, and Alice connects. -/

def carolPub : Word 32 := word32 0x64b101b1d0be5a8704bd078f9895001fc03e8e9f9522f188dd128d9846d48466

/-- X25519 of Bob's private key with Carol's public key, its digest, and the digest for the first message
    if it came from Carol. -/
def bobCarol : Word 32 := word32 0xb6ddcb217f2edb78fe01f0d967925f1e3fda132789e4566ddc2abcd3e2fd9526
def bobCarolHash : Word 32 := word32 0x08d0b2032a8416b2497974ebdbc1934a2d324e0f10dd449c0d561f467d4faf70
def bobCarolInit : Word 32 := word32 0xd51e7cb8f9669352f13a24628c0055409100d006b05b8865abdaaed35b902d67

def twoPeersSsl : OpenSsl where
  x25519 k p := if k = bob.priv ∧ p = carolPub then some bobCarol else aliceBobSsl.x25519 k p
  sha256 l :=
    if l = bobCarol.toList then bobCarolHash
    else if l = aliceBobHash.toList ++ bobCarolHash.toList ++ initLabel then bobCarolInit
    else aliceBobSsl.sha256 l

theorem twoPeers_agree : Agree twoPeersSsl alice bob := ⟨aliceBob, by decide, by decide⟩

/-- Alice's message does not decrypt with the key that Carol's would have. -/
theorem carolKey_rejects :
    (aegisPureDecrypt ((asymBody .pureC alice.pub 1000 (firstHalf aliceBobInit)).take 8) (asymHeader ++ alice.pub.toList)
      (Word.zero 16) (firstHalf bobCarolInit)
      (load 16 ((asymBody .pureC alice.pub 1000 (firstHalf aliceBobInit)).drop 8))).ret ≠ 0 := by
  decide +kernel

theorem twoPeers_wrongKey : WrongKey twoPeersSsl bob.priv alice 1000 .pureC aliceBobHash aliceBobHash carolPub := by
  have hkey : initKey twoPeersSsl aliceBobHash bobCarolHash = firstHalf bobCarolInit := by decide
  have hkey' : initKey twoPeersSsl aliceBobHash aliceBobHash = firstHalf aliceBobInit := by decide
  refine ⟨bobCarolHash, by decide, ?_⟩
  rw [hkey, hkey']
  exact carolKey_rejects

theorem twoPeers_toServer (qc : List PollRecv) :
    arriving (partyWorld bob (byteByByte (aliceInit twoPeersSsl))).inbox =
      some (handshakeClient twoPeersSsl .pureC alice.priv bob.pub (partyWorld alice qc)).2.outbox := by
  rw [alice_outbox twoPeers_agree (by decide)]
  exact arriving_byteByByte _

theorem twoPeers_wrongKey_of {ee es : Word 32} (hee : ecdhDerive twoPeersSsl alice.priv bob.pub = some ee)
    (hes : ecdhDerive twoPeersSsl alice.priv bob.pub = some es) :
    WrongKey twoPeersSsl bob.priv alice 1000 .pureC ee es carolPub := by
  have hderive : ecdhDerive twoPeersSsl alice.priv bob.pub = some aliceBobHash := by decide
  cases hee.symm.trans hderive
  cases hes.symm.trans hderive
  exact twoPeers_wrongKey

theorem twoPeers_delivered :
    ∃ wc ws, Meeting twoPeersSsl alice bob alice bob 1000 1000 1000 1000 wc ws ∧
      arriving ws.inbox = some (handshakeClient twoPeersSsl .pureC alice.priv bob.pub wc).2.outbox ∧
      arriving wc.inbox = some (tryHandshakeServer twoPeersSsl .pureC bob.priv [carolPub, alice.pub] ws).2.outbox := by
  have toServer := fun qc => twoPeers_toServer qc
  generalize byteByByte (aliceInit twoPeersSsl) = qs at *
  have toClient := arriving_byteByByte
    (tryHandshakeServer twoPeersSsl .pureC bob.priv [carolPub, alice.pub] (partyWorld bob qs)).2.outbox
  generalize byteByByte _ = qc at *
  exact ⟨partyWorld alice qc, partyWorld bob qs, meeting_alice_bob twoPeers_agree qc qs, toServer qc, toClient⟩

/-- Alice, the second configured peer, cannot connect. -/
theorem second_peer_not_connected :
    ∃ wc ws, Meeting twoPeersSsl alice bob alice bob 1000 1000 1000 1000 wc ws ∧
      [carolPub, alice.pub][1]? = some alice.pub ∧
      WrongKey twoPeersSsl bob.priv alice 1000 .pureC aliceBobHash aliceBobHash carolPub ∧
      arriving ws.inbox = some (handshakeClient twoPeersSsl .pureC alice.priv bob.pub wc).2.outbox ∧
      arriving wc.inbox = some (tryHandshakeServer twoPeersSsl .pureC bob.priv [carolPub, alice.pub] ws).2.outbox ∧
      (tryHandshakeServer twoPeersSsl .pureC bob.priv [carolPub, alice.pub] ws).1 = none ∧
      ¬ Connects twoPeersSsl .pureC .pureC alice bob [carolPub, alice.pub] wc ws := by
  obtain ⟨wc, ws, meet, toServer, toClient⟩ := twoPeers_delivered
  have hnone := tryHandshakeServer_wrongKey .pureC [alice.pub] meet
    (fun _ _ hee hes => twoPeers_wrongKey_of hee hes) toServer
  refine ⟨wc, ws, meet, rfl, twoPeers_wrongKey, toServer, toClient, hnone, ?_⟩
  rintro ⟨j, kc, ks, htry, -⟩
  cases hnone.symm.trans htry

theorem connects_iff_two_peers :
    ∃ wc ws, Meeting twoPeersSsl alice bob alice bob 1000 1000 1000 1000 wc ws ∧
      (Connects twoPeersSsl .pureC .pureC alice bob [carolPub, alice.pub] wc ws ↔
        [carolPub, alice.pub][1]? = [carolPub, alice.pub][0]?) := by
  obtain ⟨wc, ws, meet, toServer, toClient⟩ := twoPeers_delivered
  refine ⟨wc, ws, meet, connects_iff twoPeersSsl .pureC .pureC alice bob alice bob 1000 1000 1000 1000
    [carolPub, alice.pub] 1 wc ws rfl meet ?_ toServer ⟨[], ?_⟩⟩
  · intro p hp hne ee es hee hes
    rcases List.mem_pair.mp hp with rfl | rfl
    · exact twoPeers_wrongKey_of hee hes
    · exact absurd rfl hne
  · rw [List.append_nil]
    exact toClient

end AegisTunnel
