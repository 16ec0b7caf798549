import AegisTunnel.Theorems.Replay
import AegisTunnel.UdpNetwork

/-! # Packets of the UDP mode

Over a network that loses, repeats, reorders and makes up datagrams, but forges no DATA frame of a session: what the
server writes to its device was read from the device of a client, and what a client writes was read from the device
of the server and is addressed to a session with that client's key. -/

namespace AegisTunnel
open Octets

/-! ### Writes to a device -/

/-- A device takes a packet whole or not at all. -/
def WholeWrites (writes : List Sent) : Prop := ∀ n, .took n ∈ writes → frameMaxPayload ≤ n

theorem WholeWrites.tail {k : Sent} {ks : List Sent} (whole : WholeWrites (k :: ks)) : WholeWrites ks :=
  fun n member => whole n (List.mem_cons_of_mem k member)

theorem WholeWrites.take {pkt : Octets} {n : Nat} {ks : List Sent} (whole : WholeWrites (.took n :: ks))
    (short : pkt.length ≤ frameMaxPayload) : pkt.take n = pkt ∧ pkt.drop n = [] := by
  have le := short.trans (whole n (List.mem_cons_self ..))
  exact ⟨List.take_of_length_le le, List.drop_of_length_le le⟩

theorem tunWriteRest_nil (ks : List Sent) : tunWriteRest [] ks = [] := by
  cases ks <;> rfl

theorem mem_tunWriteRest {pkt p : Octets} {writes : List Sent} (short : pkt.length ≤ frameMaxPayload)
    (whole : WholeWrites writes) (member : p ∈ tunWriteRest pkt writes) : p = pkt := by
  induction writes with
  | nil =>
    rw [tunWriteRest] at member
    split at member
    · cases member
    · exact List.mem_singleton.mp member
  | cons k ks ih =>
    cases pkt with
    | nil =>
      rw [tunWriteRest_nil] at member
      cases member
    | cons c cs =>
      cases k with
      | took n =>
        obtain ⟨take, drop⟩ := whole.take short
        have written : tunWriteRest (c :: cs) (.took n :: ks) = (c :: cs).take n :: tunWriteRest ((c :: cs).drop n) ks := rfl
        rw [written, take, drop, tunWriteRest_nil] at member
        exact List.mem_singleton.mp member
      | eintr => exact ih whole.tail member
      | again => exact ih whole.tail member
      | error => cases member

theorem mem_tunWrite {pkt p : Octets} {writes : List Sent} (short : pkt.length ≤ frameMaxPayload)
    (whole : WholeWrites writes) (member : p ∈ tunWrite pkt writes) : p = pkt := by
  cases writes with
  | nil => exact List.mem_singleton.mp member
  | cons k ks =>
    cases k with
    | took n =>
      obtain ⟨take, drop⟩ := whole.take short
      rw [tunWrite, take, drop, tunWriteRest_nil] at member
      exact List.mem_singleton.mp member
    | eintr => cases member
    | again => cases member
    | error => cases member

/-! ### Frames of packets -/

/-- The frame is built for the packet. -/
def Sealed.Genuine (b : Backend) (r : Sealed) : Prop := ∃ draw, frameBuildExplicit b frameData 0 r.pkt draw r.key = some r.wire

theorem Sealed.Genuine.parse {b : Backend} {r : Sealed} (genuine : r.Genuine b) (b' : Backend) :
    frameParseExplicit b' r.wire r.key = .ok ⟨frameData, 0, r.pkt⟩ ∧ r.pkt.length ≤ frameMaxPayload := by
  obtain ⟨draw, built⟩ := genuine
  cases draw with
  | none =>
    rw [frameBuildExplicit] at built
    split at built <;> cases built
  | some rnd => exact ⟨frameParseExplicit_frameBuildExplicit built, (length_frameBuildExplicit built).1⟩

/-- The packet is addressed to the tunnel address, or one of the two is not known. -/
def AddressedTo (tunIp : UInt32) (pkt : Octets) : Prop := ipDstAddr pkt = 0 ∨ tunIp = 0 ∨ ipDstAddr pkt = tunIp

theorem mem_seals_server {b : Backend} {s : UdpServer} {e : UdpEvent} {r : UInt32 × Sealed} (member : r ∈ s.seals b e) :
    r.2.pkt ∈ e.packet ∧ (r.2.Genuine b ∧ AddressedTo r.1 r.2.pkt) := by
  unfold UdpServer.seals at member
  split at member
  next pkt draws =>
    split at member
    next => cases member
    next some_ =>
      obtain ⟨⟨x, i⟩, -, found⟩ := List.mem_filterMap.mp member
      dsimp only at found
      split at found
      next => cases found
      next takes =>
        obtain ⟨wb, built, rfl⟩ := Option.map_eq_some_iff.mp found
        refine ⟨?_, ⟨_, built⟩, ?_⟩
        · simp [UdpEvent.packet, some_]
        · simp only [UdpSession.skips, Bool.or_eq_true, Bool.and_eq_true, bne_iff_ne, Bool.not_eq_true', not_or, not_and] at takes
          simp only [AddressedTo]
          by_contra other
          push Not at other
          exact takes.2 ⟨other.1, other.2.1⟩ other.2.2
  next => cases member

theorem mem_seals_client {b : Backend} {s : TunUdpClient} {e : ClientEvent} {r : Sealed} (member : r ∈ s.seals b e) :
    r.pkt ∈ e.packet ∧ r.Genuine b := by
  unfold TunUdpClient.seals at member
  split at member
  next pkt draw =>
    split at member
    next => cases member
    next some_ =>
      obtain ⟨wb, built, rfl⟩ := List.mem_map.mp member
      exact ⟨by simp [ClientEvent.packet, some_], ⟨draw, Option.mem_toList.mp built⟩⟩
  next => cases member

/-! ### What is written -/

/-- The server writes a packet when a DATA frame of a session is accepted. -/
theorem UdpServer.step_writes {lib : OpenSsl} {b : Backend} {cfg : UdpConfig} {s t : UdpServer} {e : UdpEvent}
    (h : s.step lib b cfg e = some t) :
    t.wrote = s.wrote ∨ ∃ d sender now host writes x f, e = .recv true (.dgram d sender) now host writes ∧
      s.takes sender = some x ∧ frameParseExplicit b (d.take udpMaxDgram) x.decKey = .ok f ∧ f.type = frameData ∧
      f.payload ≠ [] ∧ t.wrote = s.wrote ++ tunWrite f.payload writes := by
  have grown := wrote_step h
  cases brings : s.brings b e with
  | none =>
    rw [brings] at grown
    exact .inl (grown.trans (List.append_nil _))
  | some p =>
    rw [brings] at grown
    unfold UdpServer.brings at brings
    split at brings
    next d sender now host writes =>
      obtain ⟨x, takes, mapped⟩ := Option.bind_eq_some_iff.mp brings
      obtain ⟨pkt, packet, rfl⟩ := Option.map_eq_some_iff.mp mapped
      obtain ⟨f, parse, data, rfl, some_⟩ := packetOf_eq_some packet
      exact .inr ⟨d, sender, now, host, writes, x, f, rfl, takes, parse, data, some_, grown⟩
    next => cases brings

theorem TunUdpClient.step_writes {lib : OpenSsl} {b : Backend} {cfg : ClientConfig} {s t : TunUdpClient} {e : ClientEvent}
    (h : s.step lib b cfg e = some t) :
    t.wrote = s.wrote ∨ ∃ d writes f, e = .recv (.dgram d) writes ∧
      frameParseExplicit b (d.take udpMaxDgram) s.keys.decKey = .ok f ∧ f.type = frameData ∧ f.payload ≠ [] ∧
      t.wrote = s.wrote ++ tunWriteRest f.payload writes := by
  have grown := wrote_step h
  cases brings : s.brings b e with
  | none =>
    rw [brings] at grown
    exact .inl (grown.trans (List.append_nil _))
  | some p =>
    rw [brings] at grown
    unfold TunUdpClient.brings at brings
    split at brings
    next d writes =>
      split at brings
      next =>
        obtain ⟨pkt, packet, rfl⟩ := Option.map_eq_some_iff.mp brings
        obtain ⟨f, parse, data, rfl, some_⟩ := packetOf_eq_some packet
        exact .inr ⟨d, writes, f, rfl, parse, data, some_, grown⟩
      next => cases brings
    next => cases brings

/-! ### What is sent -/

theorem UdpServer.sent_grows {lib : OpenSsl} {b : Backend} {cfg : UdpConfig} {s t : UdpServer} {e : UdpEvent}
    (h : s.step lib b cfg e = some t) : s.sent <+: t.sent := by
  obtain ⟨pc, -, -, rfl⟩ | ⟨-, rfl⟩ | ⟨tunIn, d, sender, now, host, writes, place, rfl, rfl⟩ |
    ⟨offer, tunIn, d, sender, now, place, -, rfl⟩ | ⟨pkt, draws, -, -, rfl⟩ | ⟨now, draws, -, -, rfl⟩ := step_effect h
  · exact List.prefix_rfl
  · exact List.prefix_rfl
  · rcases onDatagram_effect lib b cfg tunIn d sender now host writes s with ⟨rate, -, eq⟩ |
      ⟨rate, offer, host', -, -, eq⟩ | ⟨-, -, eq⟩ | ⟨si, x, -, -, -, -, -, eq⟩ | ⟨si, x, f, -, -, -, -, -, eq⟩
      <;> rw [eq]
    exact List.prefix_append _ _
  · unfold onConfirm
    dsimp only
    split <;> exact List.prefix_rfl
  · exact List.prefix_append _ _
  · exact List.prefix_append _ _

/-- The frames that are built for a packet are sent. -/
theorem UdpServer.seals_sent {lib : OpenSsl} {b : Backend} {cfg : UdpConfig} {s t : UdpServer} {e : UdpEvent}
    (h : s.step lib b cfg e = some t) {r : UInt32 × Sealed} (member : r ∈ s.seals b e) : r.2.wire ∈ t.sent.map (·.wire) := by
  unfold seals at member
  split at member
  next pkt draws =>
    split at member
    next => cases member
    next some_ =>
      simp only [step, Bool.not_true, Bool.false_eq_true, if_false, if_neg some_] at h
      split at h
      next =>
        cases h
        obtain ⟨⟨x, i⟩, found, made⟩ := List.mem_filterMap.mp member
        dsimp only at made
        split at made
        next => cases made
        next takes =>
          obtain ⟨wb, built, rfl⟩ := Option.map_eq_some_iff.mp made
          refine List.mem_map.mpr ⟨⟨some i, x.addr, wb⟩, List.mem_append_right _ (List.mem_filterMap.mpr ⟨(x, i), found, ?_⟩), rfl⟩
          simp only [takes, Bool.false_eq_true, if_false, built, Option.map_some]
      next => cases h
  next => cases member

theorem TunUdpClient.sent_grows {lib : OpenSsl} {b : Backend} {cfg : ClientConfig} {s t : TunUdpClient} {e : ClientEvent}
    (h : s.step lib b cfg e = some t) : s.sent <+: t.sent := by
  cases e with
  | connect running reached peer now =>
    simp only [step] at h
    repeat' split at h
    all_goals cases h <;> exact List.prefix_rfl
  | round running answer =>
    simp only [step] at h
    repeat' split at h
    all_goals cases h <;> exact List.prefix_rfl
  | read answer draw =>
    simp only [step] at h
    repeat' split at h
    all_goals cases h <;> first | exact List.prefix_rfl | exact List.prefix_append _ _
  | recv answer writes =>
    simp only [step] at h
    repeat' split at h
    all_goals cases h <;> try exact List.prefix_rfl
    unfold onDatagram
    split <;> exact List.prefix_rfl
  | keepalive now draw =>
    simp only [step] at h
    split at h <;> cases h
    unfold onKeepalive
    dsimp only
    split
    · exact List.prefix_append _ _
    · exact List.prefix_rfl

theorem TunUdpClient.seals_sent {lib : OpenSsl} {b : Backend} {cfg : ClientConfig} {s t : TunUdpClient} {e : ClientEvent}
    (h : s.step lib b cfg e = some t) {r : Sealed} (member : r ∈ s.seals b e) : r.wire ∈ t.sent := by
  unfold seals at member
  split at member
  next pkt draw =>
    split at member
    next => cases member
    next some_ =>
      simp only [step, if_neg some_] at h
      split at h
      next =>
        cases h
        obtain ⟨wb, built, rfl⟩ := List.mem_map.mp member
        exact List.mem_append_right _ built
      next => cases h
  next => cases member

/-! ### Runs -/

namespace UdpNet
variable {ι : Type} {lib : OpenSsl} {b : Backend} {backend : ι → Backend} {cfg : UdpConfig}
  {config : ι → ClientConfig}

/-- No DATA frame of a session is forged: one that the server accepts was built by a client with that key, and one that
a client accepts was built by the server. A device takes a packet whole or not at all. -/
structure Unforged (b : Backend) (backend : ι → Backend) (n : UdpNet ι) (ev : UdpNetEvent ι) : Prop where
  server : ∀ d sender now host writes x, ev = .server (.recv true (.dgram d sender) now host writes) →
    n.server.takes sender = some x → bringsPacket b x.decKey d = true →
    ∃ i, ∃ r ∈ n.fromClient i, r.key = x.decKey ∧ r.wire = d.take udpMaxDgram
  client : ∀ i d writes, ev = .client i (.recv (.dgram d) writes) →
    bringsPacket (backend i) (n.clients i).keys.decKey d = true →
    ∃ r ∈ n.fromServer, r.2.key = (n.clients i).keys.decKey ∧ r.2.wire = d.take udpMaxDgram
  serverDevice : ∀ d sender now host writes, ev = .server (.recv true (.dgram d sender) now host writes) → WholeWrites writes
  clientDevice : ∀ i d writes, ev = .client i (.recv (.dgram d) writes) → WholeWrites writes

/-- Every frame was built for a packet that was read and then sent, and every packet written comes out of such a
frame. -/
structure Authentic (b : Backend) (backend : ι → Backend) (n : UdpNet ι) : Prop where
  clientFrames : ∀ i, ∀ r ∈ n.fromClient i, r.pkt ∈ n.readClient i ∧ r.Genuine (backend i) ∧ r.wire ∈ (n.clients i).sent
  serverFrames : ∀ r ∈ n.fromServer, r.2.pkt ∈ n.readServer ∧ (r.2.Genuine b ∧ AddressedTo r.1 r.2.pkt) ∧
    r.2.wire ∈ n.server.sent.map (·.wire)
  serverWrites : ∀ pkt ∈ n.server.wrote, ∃ i, ∃ r ∈ n.fromClient i, r.pkt = pkt
  clientWrites : ∀ i, ∀ pkt ∈ (n.clients i).wrote, ∃ r ∈ n.fromServer, r.2.pkt = pkt

theorem init_authentic (b : Backend) (backend : ι → Backend) : Authentic b backend (init : UdpNet ι) where
  clientFrames i r member := by cases member
  serverFrames r member := by cases member
  serverWrites pkt member := by cases member
  clientWrites i pkt member := by cases member

/-- The payload of an accepted frame is the packet that it was built for. -/
theorem payload_of_genuine {b b' : Backend} {r : Sealed} {d : Octets} {f : Frame} (genuine : r.Genuine b) {key : Block}
    (same : r.key = key) (wire : r.wire = d.take udpMaxDgram) (parse : frameParseExplicit b' (d.take udpMaxDgram) key = .ok f) :
    f.payload = r.pkt ∧ f.payload.length ≤ frameMaxPayload := by
  obtain ⟨ok, short⟩ := genuine.parse b'
  rw [wire, same, parse] at ok
  cases ok
  exact ⟨rfl, short⟩

theorem Authentic.server [DecidableEq ι] {n n' : UdpNet ι} {e : UdpEvent} (inv : Authentic b backend n)
    (taken : n.step lib b backend cfg config (.server e) = some n') (honest : Unforged b backend n (.server e)) :
    Authentic b backend n' := by
  obtain ⟨t, stepped, rfl⟩ := Option.map_eq_some_iff.mp taken
  refine ⟨inv.clientFrames, fun r member => ?_, fun pkt member => ?_, fun i pkt member => ?_⟩
  · rcases List.mem_append.mp member with before | new
    · obtain ⟨read, rest, sent⟩ := inv.serverFrames r before
      exact ⟨List.mem_append_left _ read, rest, List.map_subset _ (UdpServer.sent_grows stepped).subset sent⟩
    · obtain ⟨read, rest⟩ := mem_seals_server new
      exact ⟨List.mem_append_right _ (Option.mem_toList.mpr read), rest, UdpServer.seals_sent stepped new⟩
  · rcases UdpServer.step_writes stepped with same | ⟨d, sender, now, host, writes, x, f, rfl, takes, parse, data, some_, grown⟩
    · rw [show _ = n.server.wrote from same] at member
      exact inv.serverWrites pkt member
    · rw [show _ = n.server.wrote ++ _ from grown] at member
      rcases List.mem_append.mp member with before | new
      · exact inv.serverWrites pkt before
      · obtain ⟨i, r, known, key, wire⟩ := honest.server d sender now host writes x rfl takes
          ((bringsPacket_iff parse).mpr ⟨data, some_⟩)
        obtain ⟨payload, short⟩ := payload_of_genuine (inv.clientFrames i r known).2.1 key wire parse
        obtain rfl := mem_tunWrite short (honest.serverDevice d sender now host writes rfl) new
        exact ⟨i, r, known, payload.symm⟩
  · obtain ⟨r, known, same⟩ := inv.clientWrites i pkt member
    exact ⟨r, List.mem_append_left _ known, same⟩

theorem Authentic.client [DecidableEq ι] {n n' : UdpNet ι} {i : ι} {e : ClientEvent} (inv : Authentic b backend n)
    (taken : n.step lib b backend cfg config (.client i e) = some n') (honest : Unforged b backend n (.client i e)) :
    Authentic b backend n' := by
  obtain ⟨t, stepped, rfl⟩ := Option.map_eq_some_iff.mp taken
  refine ⟨fun j r member => ?_, inv.serverFrames, fun pkt member => ?_, fun j pkt member => ?_⟩
  · dsimp only at member ⊢
    by_cases here : j = i
    · subst here
      rw [Function.update_self] at member
      rw [Function.update_self, Function.update_self]
      rcases List.mem_append.mp member with before | new
      · obtain ⟨read, rest, sent⟩ := inv.clientFrames j r before
        exact ⟨List.mem_append_left _ read, rest, (TunUdpClient.sent_grows stepped).subset sent⟩
      · obtain ⟨read, rest⟩ := mem_seals_client new
        exact ⟨List.mem_append_right _ (Option.mem_toList.mpr read), rest, TunUdpClient.seals_sent stepped new⟩
    · rw [Function.update_of_ne here] at member
      rw [Function.update_of_ne here, Function.update_of_ne here]
      exact inv.clientFrames j r member
  · obtain ⟨j, r, known, same⟩ := inv.serverWrites pkt member
    refine ⟨j, r, ?_, same⟩
    dsimp only
    by_cases here : j = i
    · subst here
      rw [Function.update_self]
      exact List.mem_append_left _ known
    · rw [Function.update_of_ne here]
      exact known
  · dsimp only at member
    by_cases here : j = i
    · subst here
      rw [Function.update_self] at member
      rcases TunUdpClient.step_writes stepped with same | ⟨d, writes, f, rfl, parse, data, some_, grown⟩
      · rw [same] at member
        exact inv.clientWrites j pkt member
      · rw [grown] at member
        rcases List.mem_append.mp member with before | new
        · exact inv.clientWrites j pkt before
        · obtain ⟨r, known, key, wire⟩ := honest.client j d writes rfl ((bringsPacket_iff parse).mpr ⟨data, some_⟩)
          obtain ⟨payload, short⟩ := payload_of_genuine (inv.serverFrames r known).2.1.1 key wire parse
          obtain rfl := mem_tunWriteRest short (honest.clientDevice j d writes rfl) new
          exact ⟨r, known, payload.symm⟩
    · rw [Function.update_of_ne here] at member
      exact inv.clientWrites j pkt member

end UdpNet

/-- Over a network on which no DATA frame of a session is forged, every packet that the server writes to its device was
read from a client's device and sent by that client, and every packet that a client writes was read from the server's
device, is addressed to the tunnel address of the session for which its frame was built, and was sent by the server. -/
theorem udp_packets_authentic {ι : Type} [DecidableEq ι] (lib : OpenSsl) (b : Backend) (backend : ι → Backend)
    (cfg : UdpConfig) (config : ι → ClientConfig) (n : UdpNet ι)
    (run : Machine.Steps (UdpNet.step lib b backend cfg config) (fun n ev _ => UdpNet.Unforged b backend n ev) .init n) :
    (∀ pkt ∈ n.server.wrote, ∃ i, pkt ∈ n.readClient i ∧ ∃ r ∈ n.fromClient i, r.pkt = pkt ∧ r.wire ∈ (n.clients i).sent) ∧
    (∀ i, ∀ pkt ∈ (n.clients i).wrote, pkt ∈ n.readServer ∧
      ∃ r ∈ n.fromServer, r.2.pkt = pkt ∧ AddressedTo r.1 pkt ∧ r.2.wire ∈ n.server.sent.map (·.wire)) := by
  have inv : UdpNet.Authentic b backend n := by
    refine run.invariant (UdpNet.init_authentic b backend) ?_
    intro n n' ev inv taken honest
    cases ev with
    | server e => exact inv.server taken honest
    | client i e => exact inv.client taken honest
  constructor
  · intro pkt member
    obtain ⟨i, r, known, rfl⟩ := inv.serverWrites pkt member
    obtain ⟨read, -, sent⟩ := inv.clientFrames i r known
    exact ⟨i, read, r, known, rfl, sent⟩
  · intro i pkt member
    obtain ⟨r, known, rfl⟩ := inv.clientWrites i pkt member
    obtain ⟨read, ⟨-, addressed⟩, sent⟩ := inv.serverFrames r known
    exact ⟨read, r, known, rfl, addressed, sent⟩

/-! ### A packet from `alice` to `bob` -/

namespace UdpNet
variable {ι : Type} {b : Backend} {backend : ι → Backend} {n : UdpNet ι}

theorem step_server [DecidableEq ι] {lib : OpenSsl} {cfg : UdpConfig} {config : ι → ClientConfig} {e : UdpEvent} {t : UdpServer}
    (h : n.server.step lib b cfg e = some t) : step lib b backend cfg config n (.server e) = some { n with
      server := t
      readServer := n.readServer ++ e.packet.toList
      fromServer := n.fromServer ++ n.server.seals b e } := by
  simp only [step, h, Option.map_some]

theorem step_client [DecidableEq ι] {lib : OpenSsl} {cfg : UdpConfig} {config : ι → ClientConfig} {i : ι} {e : ClientEvent}
    {t : TunUdpClient} (h : (n.clients i).step lib (backend i) (config i) e = some t) :
    step lib b backend cfg config n (.client i e) = some { n with
      clients := Function.update n.clients i t
      readClient := Function.update n.readClient i (n.readClient i ++ e.packet.toList)
      fromClient := Function.update n.fromClient i (n.fromClient i ++ (n.clients i).seals (backend i) e) } := by
  simp only [step, h, Option.map_some]

/-- A step of the server that takes no datagram, or one from an address without a session. -/
theorem unforged_server {e : UdpEvent} (none_ : ∀ d sender now host writes, e = .recv true (.dgram d sender) now host writes →
    n.server.takes sender = none ∧ writes = []) : Unforged b backend n (.server e) where
  server d sender now host writes x event takes _ := by
    cases event
    cases (none_ d sender now host writes rfl).1.symm.trans takes
  client i d writes event := by cases event
  serverDevice d sender now host writes event := by
    cases event
    rw [(none_ d sender now host writes rfl).2]
    intro k member
    cases member
  clientDevice i d writes event := by cases event

theorem unforged_client {i : ι} {e : ClientEvent} (none_ : ∀ d writes, e ≠ .recv (.dgram d) writes) :
    Unforged b backend n (.client i e) where
  server d sender now host writes x event := by cases event
  client j d writes event := by
    cases event
    exact absurd rfl (none_ d writes)
  serverDevice d sender now host writes event := by cases event
  clientDevice j d writes event := by
    cases event
    exact absurd rfl (none_ d writes)

end UdpNet

/-- The session of `alice` at `bob`. -/
def aliceSession (offer : UdpOffer) : UdpSession where
  addr := natClient 4000
  encKey := offer.keys.encKey
  decKey := offer.keys.decKey
  tunIp := bobConfig.tunIpOf offer.peer
  lastSeen := 1000
  active := true

/-- `alice` has a session at `bob` with the keys of her client, and her client has read a packet of one byte. -/
theorem alice_sealed :
    ∃ (n : UdpNet Unit) (offer : UdpOffer) (d : Octets),
      Machine.Steps (UdpNet.step udpSsl .pureC (fun _ => .pureC) bobConfig fun _ => aliceConfig)
        (fun n ev _ => UdpNet.Unforged .pureC (fun _ => .pureC) n ev) .init n ∧
      n.server.pc = .udp false ∧ n.server.sessions = [aliceSession offer] ∧ n.server.wrote = [] ∧
      n.fromClient () = [⟨offer.keys.decKey, [1], d⟩] ∧
      frameBuildExplicit .pureC frameData 0 [1] (some (Word.zero 8)) offer.keys.decKey = some d := by
  have known : alice.pub ∈ [carolPub, alice.pub] := by simp
  obtain ⟨init, offer, hinit', hlen, htype, htry, -, hclient⟩ := meeting_aliceClient.agree .pureC .pureC known (by
    intro p hp hne ee es hee hes
    cases hee.symm.trans udpSsl_alice_bob
    cases hes.symm.trans udpSsl_alice_bob
    rcases List.mem_pair.mp hp with rfl | rfl
    · exact carol_wrongKey
    · exact absurd rfl hne)
  have hinit := meeting_aliceClient.client_init .pureC udpSsl_alice_bob udpSsl_alice_bob
  cases hinit.symm.trans hinit'
  have htry' := bob_offers_second.symm.trans htry
  obtain ⟨keys, confirm, connects, -, hconfirmed, henc, -⟩ := hclient [] (by cases htry'; rfl)
  -- The server: `poll`, the first datagram, the confirmation.
  have admitted := rateInit_admits (inetNtop (natClient 4000).ip) 1000
  have htry : (udpTryPeers udpSsl .pureC bobConfig.asymPriv (clientInit alice.pub aliceBobHash 1000) 0
      (bobConfig.peers.map (·.pub)) (bobHost 1000)).1 = some offer := htry
  have hjoin := UdpServer.step_init (s := { UdpServer.init with pc := .udp false }) [] rfl hlen htype admitted htry
  have waiting : ({ UdpServer.init with
      rate := (handshakeRateCheck (inetNtop (natClient 4000).ip) 1000 rateInit).2
      pc := .confirm offer false
      received := [(natClient 4000, clientInit alice.pub aliceBobHash 1000)]
      sent := [⟨none, natClient 4000, offer.resp⟩, ⟨none, natClient 4000, offer.confirm⟩] } : UdpServer).pc =
      .confirm offer false := rfl
  have hdone := UdpServer.step_confirm udpSsl .pureC bobConfig confirm (natClient 4000) 1000 waiting
  rw [UdpServer.onConfirm_of_confirmed hconfirmed] at hdone
  have connects : (udpHandshakeClient udpSsl .pureC aliceConfig.asymPriv aliceConfig.peer aliceClient).1 = some keys := connects
  have hconnect := TunUdpClient.step_connect (s := .init) 1000 rfl connects
  obtain ⟨d, built⟩ : ∃ d, frameBuildExplicit .pureC frameData 0 [1] (some (Word.zero 8)) offer.keys.decKey = some d :=
    ⟨_, frameBuildExplicit_of_le (by decide)⟩
  have quiet : ∀ {n : UdpNet Unit} {e : UdpEvent},
      (∀ d sender now host writes, e ≠ .recv true (.dgram d sender) now host writes) →
      UdpNet.Unforged .pureC (fun _ => .pureC) n (.server e) :=
    fun no => UdpNet.unforged_server fun d sender now host writes event => absurd event (no d sender now host writes)
  refine ⟨_, offer, d, .head (e := .server (.round true (.ready true false))) rfl (quiet (by simp)) <|
    .head (e := .server (.recv true (.dgram (clientInit alice.pub aliceBobHash 1000) (natClient 4000)) 1000 (bobHost 1000) []))
      (UdpNet.step_server hjoin) (UdpNet.unforged_server ?_) <|
    .head (e := .server (.await true (.dgram confirm (natClient 4000) 1000))) (UdpNet.step_server hdone) (quiet (by simp)) <|
    .head (e := .client () (.connect true true aliceClient 1000)) (UdpNet.step_client hconnect)
      (UdpNet.unforged_client (by simp)) <|
    .head (e := .client () (.round true (.ready false true))) rfl (UdpNet.unforged_client (by simp)) <|
    .head (e := .client () (.read (.packet [1]) (some (Word.zero 8)))) rfl (UdpNet.unforged_client (by simp)) .refl,
    rfl, rfl, rfl, ?_, built⟩
  · rintro d sender now host writes ⟨⟩
    exact ⟨rfl, rfl⟩
  · show [] ++ [] ++ [] ++ (frameBuildExplicit .pureC frameData 0 [1] (some (Word.zero 8)) keys.encKey).toList.map
      (Sealed.mk keys.encKey [1]) = _
    rw [henc, built]
    rfl

/-- The packet that `alice` read arrives at `bob`'s device. -/
theorem udp_packets_authentic_alice :
    ∃ n : UdpNet Unit,
      Machine.Steps (UdpNet.step udpSsl .pureC (fun _ => .pureC) bobConfig fun _ => aliceConfig)
        (fun n ev _ => UdpNet.Unforged .pureC (fun _ => .pureC) n ev) .init n ∧
      n.server.wrote = [[1]] ∧ [1] ∈ n.readClient () := by
  obtain ⟨n, offer, d, run, place, only, wrote, record, built⟩ := alice_sealed
  have parse : frameParseExplicit .pureC (d.take udpMaxDgram) offer.keys.decKey = .ok ⟨frameData, 0, [1]⟩ :=
    wire_accepted built (by decide)
  have whole : d.take udpMaxDgram = d := List.take_of_length_le (by rw [(length_frameBuildExplicit built).2]; decide)
  have accepts : n.server.Accepts .pureC (natClient 4000) d [1] :=
    ⟨⟨false, place⟩, ⟨aliceSession offer, only, rfl, rfl, 0, parse⟩, by decide⟩
  obtain ⟨t, stepped, -, written, -⟩ := accepts.again udpSsl bobConfig 1000 (bobHost 1000)
  have run' := run.tail (UdpNet.step_server stepped) (e := .server (.recv true (.dgram d (natClient 4000)) 1000 (bobHost 1000) []))
    { server := by
        rintro d' sender now host writes x ⟨⟩ takes -
        refine ⟨(), ⟨offer.keys.decKey, [1], d⟩, by rw [record]; exact List.mem_singleton_self _, ?_, whole.symm⟩
        simp only [UdpServer.takes, place, only] at takes
        cases takes
        rfl
      client := by rintro i d writes ⟨⟩
      serverDevice := by
        rintro d sender now host writes ⟨⟩ k member
        cases member
      clientDevice := by rintro i d writes ⟨⟩ }
  have written : t.wrote = [[1]] := by rw [written, wrote]; rfl
  obtain ⟨i, read, -⟩ := (udp_packets_authentic _ _ _ _ _ _ run').1 [1] (by
    show [1] ∈ t.wrote
    rw [written]
    exact List.mem_singleton_self _)
  exact ⟨_, run', written, read⟩

end AegisTunnel
