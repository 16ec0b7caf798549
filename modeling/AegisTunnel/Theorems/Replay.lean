import AegisTunnel.Lib.Datagrams
import AegisTunnel.ModeTunUdpClient
import AegisTunnel.Theorems.UdpWaiting

/-! # Replayed datagrams

A frame of the UDP mode is decrypted with the nonce that it carries, and nothing of it is remembered: a
datagram is written to the device each time that it comes. -/

namespace AegisTunnel
open Octets Datagrams

/-- The arguments of `frame_build_explicit` but for the key. -/
structure Outgoing where
  type : UInt8
  flags : UInt8
  payload : Octets
  rnd : Option (Word 8)

def Outgoing.wire (b : Backend) (key : Block) (o : Outgoing) : Option Octets :=
  frameBuildExplicit b o.type o.flags o.payload o.rnd key

/-- The payload of a DATA frame under the key, unless it is empty. -/
def packetOf (b : Backend) (key : Block) (d : Octets) : Option Octets :=
  match frameParseExplicit b (d.take udpMaxDgram) key with
  | .ok f => if f.type = frameData ∧ f.payload ≠ [] then some f.payload else none
  | _ => none

/-- The datagram is a DATA frame with a payload under the key. -/
def bringsPacket (b : Backend) (key : Block) (d : Octets) : Bool := (packetOf b key d).isSome

section
variable {b : Backend} {key : Block} {d : Octets} {f : Frame}

theorem packetOf_ok (h : frameParseExplicit b (d.take udpMaxDgram) key = .ok f) :
    packetOf b key d = if f.type = frameData ∧ f.payload ≠ [] then some f.payload else none := by
  simp only [packetOf, h]

theorem packetOf_not (h : ∀ f, frameParseExplicit b (d.take udpMaxDgram) key ≠ .ok f) : packetOf b key d = none := by
  unfold packetOf
  split
  next f parse => exact absurd parse (h f)
  next => rfl

theorem bringsPacket_iff (h : frameParseExplicit b (d.take udpMaxDgram) key = .ok f) :
    bringsPacket b key d = true ↔ f.type = frameData ∧ f.payload ≠ [] := by
  rw [bringsPacket, packetOf_ok h]
  split <;> simp_all

/-- A datagram that brings a packet is a DATA frame with it. -/
theorem packetOf_eq_some {pkt : Octets} (h : packetOf b key d = some pkt) :
    ∃ f, frameParseExplicit b (d.take udpMaxDgram) key = .ok f ∧ f.type = frameData ∧ f.payload = pkt ∧ pkt ≠ [] := by
  unfold packetOf at h
  split at h
  next f parse =>
    split at h
    next packet =>
      cases h
      exact ⟨f, parse, packet.1, rfl, packet.2⟩
    next => cases h
  next => cases h

end

/-! ### Writing a packet -/

/-- A packet that goes to the device: its datagram, and the answers of `write`. -/
structure Incoming where
  dgram : Octets
  packet : Octets
  writes : List Sent

/-- Whether something is written of a packet where a first call that fails drops it. -/
def takesFirst : List Sent → Bool
  | [] | .took _ :: _ => true
  | _ :: _ => false

/-- Whether something is written of a packet where only an error ends the loop. -/
def takesRest : List Sent → Bool
  | [] | .took _ :: _ => true
  | .eintr :: ks | .again :: ks => takesRest ks
  | .error :: _ => false

theorem flatten_tunWriteRest (pkt : Octets) (ks : List Sent) : (tunWriteRest pkt ks).flatten <+: pkt := by
  induction ks generalizing pkt with
  | nil =>
    rw [tunWriteRest]
    split
    · exact List.nil_prefix
    · rw [List.flatten_singleton]
  | cons k ks ih =>
    rw [tunWriteRest.eq_def]
    dsimp only
    split
    · exact List.nil_prefix
    · cases k with
      | took n =>
        conv => rhs; rw [← List.take_append_drop n pkt]
        exact List.prefix_append_right_inj _ |>.mpr (ih (pkt.drop n))
      | eintr => exact ih pkt
      | again => exact ih pkt
      | error => exact List.nil_prefix

theorem flatten_tunWrite (pkt : Octets) (ks : List Sent) : (tunWrite pkt ks).flatten <+: pkt := by
  cases ks with
  | nil => rw [tunWrite, List.flatten_singleton]
  | cons k ks =>
    cases k with
    | took n =>
      conv => rhs; rw [← List.take_append_drop n pkt]
      exact List.prefix_append_right_inj _ |>.mpr (flatten_tunWriteRest (pkt.drop n) ks)
    | _ => exact List.nil_prefix

theorem tunWriteRest_eq_nil_iff {pkt : Octets} (packet : pkt ≠ []) (ks : List Sent) :
    tunWriteRest pkt ks = [] ↔ takesRest ks = false := by
  have some_ : ¬ pkt.isEmpty = true := fun h => packet (List.isEmpty_iff.mp h)
  induction ks with
  | nil => rw [tunWriteRest, if_neg some_]; simp [takesRest]
  | cons k ks ih =>
    rw [tunWriteRest.eq_def]
    dsimp only
    rw [if_neg some_]
    cases k with
    | took n => simp [takesRest]
    | eintr => exact ih
    | again => exact ih
    | error => exact iff_of_true rfl rfl

theorem tunWrite_eq_nil_iff (pkt : Octets) (ks : List Sent) : tunWrite pkt ks = [] ↔ takesFirst ks = false := by
  cases ks with
  | nil => simp [tunWrite, takesFirst]
  | cons k ks => cases k <;> simp [tunWrite, takesFirst]

/-! ### The server -/

namespace UdpServer
variable {lib : OpenSsl} {b : Backend} {cfg : UdpConfig} {s t : UdpServer} {e : UdpEvent}

/-- The session that takes a datagram of the sender, outside a wait for a confirmation. -/
def takes (s : UdpServer) (sender : SockAddr) : Option UdpSession :=
  match s.pc with
  | .udp _ => (sessionFind s.sessions sender).bind (s.sessions[·]?)
  | _ => none

/-- The packet that goes to the device in a step. -/
def brings (b : Backend) (s : UdpServer) : UdpEvent → Option Incoming
  | .recv true (.dgram d sender) _ _ writes =>
    (s.takes sender).bind fun x => (packetOf b x.decKey d).map (⟨d, ·, writes⟩)
  | _ => none

theorem brings_of_quiet (quiet : e.datagram = none) : s.brings b e = none := by
  unfold brings
  split
  next => cases quiet
  next => rfl

/-- A handshake is no packet of a session. -/
theorem brings_of_handshake {d : Octets} {sender : SockAddr} {now : Int64} {host : World} {writes : List Sent}
    (handshake : IsHandshake d) : s.brings b (.recv true (.dgram d sender) now host writes) = none := by
  have nothing (key : Block) : packetOf b key d = none := by
    rw [Option.eq_none_iff_forall_ne_some]
    intro pkt h
    obtain ⟨f, parse, data, -⟩ := packetOf_eq_some h
    exact not_isHandshake parse data handshake
  simp [brings, nothing]

/-- All that a step writes to the device. -/
theorem wrote_step (h : step lib b cfg s e = some t) :
    t.wrote = s.wrote ++ (s.brings b e).elim [] fun p => tunWrite p.packet p.writes := by
  obtain ⟨pc, -, quiet, rfl⟩ | ⟨quiet, rfl⟩ | ⟨tunIn, d, sender, now, host, writes, place, rfl, rfl⟩ |
    ⟨offer, tunIn, d, sender, now, place, rfl, rfl⟩ | ⟨pkt, draws, -, rfl, rfl⟩ | ⟨now, draws, -, rfl, rfl⟩ := step_effect h
  · rw [brings_of_quiet quiet]; exact (List.append_nil _).symm
  · rw [brings_of_quiet quiet]; exact (List.append_nil _).symm
  · rcases onDatagram_effect lib b cfg tunIn d sender now host writes s with ⟨rate, handshake, eq⟩ |
      ⟨rate, offer, host', handshake, -, eq⟩ | ⟨-, find, eq⟩ | ⟨si, x, -, find, slot, -, parse, eq⟩ |
      ⟨si, x, f, -, find, slot, -, parse, eq⟩ <;> rw [eq]
    · rw [brings_of_handshake handshake]; exact (List.append_nil _).symm
    · rw [brings_of_handshake handshake]; exact (List.append_nil _).symm
    · simp [brings, takes, place, find]
    · simp [brings, takes, place, find, slot, packetOf_not parse]
    · simp only [brings, takes, place, find, Option.bind_some, slot, packetOf_ok parse]
      split <;> rfl
  · rw [onConfirm_wrote]; exact (List.append_nil _).symm
  · exact (List.append_nil _).symm
  · exact (List.append_nil _).symm

/-- The datagram of which something is written in a step, with its packet. -/
def opens (b : Backend) (s : UdpServer) (e : UdpEvent) : Option (Octets × Octets) :=
  (s.brings b e).bind fun p => if takesFirst p.writes then some (p.dgram, p.packet) else none

/-- The server, and a client that builds frames with `key`. -/
def link (lib : OpenSsl) (b b' : Backend) (cfg : UdpConfig) (key : Block) :
    Link UdpServer UdpEvent Outgoing Octets UInt8 where
  make o := (o.wire b' key).map (·, o.payload)
  step := step lib b cfg
  opens := opens b
  outputs := wrote
  quiet := by
    intro s t e h closed
    rw [wrote_step h]
    cases brings : s.brings b e with
    | none => exact List.append_nil _
    | some p =>
      have refused : takesFirst p.writes = false := by simpa [opens, brings] using closed
      rw [Option.elim_some, (tunWrite_eq_nil_iff _ _).mpr refused, List.append_nil]
  pieces := by
    intro s t e x h opened
    obtain ⟨p, brings, opened⟩ := Option.bind_eq_some_iff.mp opened
    split at opened
    next taken =>
      cases opened
      refine ⟨tunWrite p.packet p.writes, fun none => ?_, flatten_tunWrite _ _, ?_⟩
      · rw [(tunWrite_eq_nil_iff _ _).mp none] at taken
        cases taken
      · rw [wrote_step h, brings, Option.elim_some]
    next => cases opened

/-- The only session is the sender's, and the datagram is a packet of it. -/
structure Accepts (b : Backend) (sender : SockAddr) (d pkt : Octets) (s : UdpServer) : Prop where
  place : ∃ tunIn, s.pc = .udp tunIn
  session : ∃ x, s.sessions = [x] ∧ x.active = true ∧ x.addr.ip = sender.ip ∧
    ∃ flags, frameParseExplicit b (d.take udpMaxDgram) x.decKey = .ok ⟨frameData, flags, pkt⟩
  packet : pkt ≠ []

/-- The packet is written, and the server would write it again. -/
theorem Accepts.again {sender : SockAddr} {d pkt : Octets} (acc : s.Accepts b sender d pkt) (lib : OpenSsl)
    (cfg : UdpConfig) (now : Int64) (host : World) :
    ∃ t, step lib b cfg s (.recv true (.dgram d sender) now host []) = some t ∧
      s.opens b (.recv true (.dgram d sender) now host []) = some (d, pkt) ∧ t.wrote = s.wrote ++ [pkt] ∧
      t.Accepts b sender d pkt := by
  obtain ⟨⟨tunIn, place⟩, ⟨x, only, live, ip, flags, parse⟩, packet⟩ := acc
  have find : sessionFind s.sessions sender = some 0 := by
    simp [sessionFind, Slots.find, only, live, ip]
  have slot : s.sessions[0]? = some x := by rw [only]; rfl
  refine ⟨s.onDatagram lib b cfg tunIn d sender now host [], ?_, ?_, ?_, ?_⟩
  · simp only [step, place, Bool.not_true, Bool.false_eq_true, if_false]
  · simp [opens, brings, takes, place, find, slot, packetOf_ok parse, packet, takesFirst]
  · exact (onDatagram_effect ..).written find slot parse rfl packet (List.forall_mem_nil _)
  · rcases onDatagram_effect lib b cfg tunIn d sender now host [] s with ⟨rate, handshake, -⟩ |
      ⟨rate, offer, host', handshake, -⟩ | ⟨-, none, -⟩ | ⟨si, y, -, find', slot', -, no, -⟩ |
      ⟨si, y, f, -, find', slot', -, -, eq⟩
    · exact absurd handshake (not_isHandshake parse rfl)
    · exact absurd handshake (not_isHandshake parse rfl)
    · cases none.symm.trans find
    · cases find.symm.trans find'
      cases slot.symm.trans slot'
      exact absurd parse (no _)
    · cases find.symm.trans find'
      cases slot.symm.trans slot'
      rw [eq]
      exact ⟨⟨tunIn, place⟩, ⟨{ x with addr.port := sender.port, lastSeen := now }, by rw [only]; rfl, live, ip, flags,
        parse⟩, packet⟩

end UdpServer

/-! ### The client -/

namespace TunUdpClient
variable {lib : OpenSsl} {b : Backend} {cfg : ClientConfig} {s t : TunUdpClient} {e : ClientEvent}

/-- The packet that goes to the device in a step. -/
def brings (b : Backend) (s : TunUdpClient) : ClientEvent → Option Incoming
  | .recv (.dgram d) writes => if s.pc = .udp then (packetOf b s.keys.decKey d).map (⟨d, ·, writes⟩) else none
  | _ => none

/-- All that a step writes to the device. -/
theorem wrote_step (h : step lib b cfg s e = some t) :
    t.wrote = s.wrote ++ (s.brings b e).elim [] fun p => tunWriteRest p.packet p.writes := by
  have same (none : s.brings b e = none) :
      s.wrote = s.wrote ++ (s.brings b e).elim [] fun p => tunWriteRest p.packet p.writes := by
    rw [none]
    exact (List.append_nil _).symm
  cases e with
  | connect running reached peer now =>
    simp only [step] at h
    repeat' split at h
    all_goals cases h <;> exact same rfl
  | round running answer =>
    simp only [step] at h
    repeat' split at h
    all_goals cases h <;> exact same rfl
  | read answer draw =>
    simp only [step] at h
    repeat' split at h
    all_goals cases h <;> exact same rfl
  | recv answer writes =>
    simp only [step] at h
    split at h
    next place =>
      cases answer with
      | again => cases h; exact same rfl
      | error => cases h; exact same rfl
      | dgram d =>
        dsimp only at h
        split at h <;> cases h
        next empty =>
          have none : packetOf b s.keys.decKey d = none := packetOf_not fun f parse => by
            rw [List.isEmpty_iff.mp empty] at parse
            cases parse
          exact same (by simp [brings, none])
        next =>
          unfold onDatagram
          split
          next f parse =>
            simp only [brings, place, if_true, packetOf_ok parse]
            split <;> rfl
          next bad => exact same (by simp [brings, packetOf_not bad])
    next => cases h
  | keepalive now draw =>
    simp only [step] at h
    split at h <;> cases h
    unfold onKeepalive
    dsimp only
    split <;> exact same rfl

/-- The datagram of which something is written in a step, with its packet. -/
def opens (b : Backend) (s : TunUdpClient) (e : ClientEvent) : Option (Octets × Octets) :=
  (s.brings b e).bind fun p => if takesRest p.writes then some (p.dgram, p.packet) else none

theorem brings_packet {p : Incoming} (h : s.brings b e = some p) : p.packet ≠ [] := by
  unfold brings at h
  split at h
  next =>
    split at h
    next =>
      obtain ⟨pkt, packet, rfl⟩ := Option.map_eq_some_iff.mp h
      obtain ⟨-, -, -, -, some_⟩ := packetOf_eq_some packet
      exact some_
    next => cases h
  next => cases h

/-- The client, and a server that builds frames with `key`. -/
def link (lib : OpenSsl) (b b' : Backend) (cfg : ClientConfig) (key : Block) :
    Link TunUdpClient ClientEvent Outgoing Octets UInt8 where
  make o := (o.wire b' key).map (·, o.payload)
  step := step lib b cfg
  opens := opens b
  outputs := wrote
  quiet := by
    intro s t e h closed
    rw [wrote_step h]
    cases brings : s.brings b e with
    | none => exact List.append_nil _
    | some p =>
      have refused : takesRest p.writes = false := by simpa [opens, brings] using closed
      rw [Option.elim_some, (tunWriteRest_eq_nil_iff (brings_packet brings) _).mpr refused, List.append_nil]
  pieces := by
    intro s t e x h opened
    obtain ⟨p, brings, opened⟩ := Option.bind_eq_some_iff.mp opened
    split at opened
    next taken =>
      cases opened
      refine ⟨tunWriteRest p.packet p.writes, fun none => ?_, flatten_tunWriteRest _ _, ?_⟩
      · rw [(tunWriteRest_eq_nil_iff (brings_packet brings) _).mp none] at taken
        cases taken
      · rw [wrote_step h, brings, Option.elim_some]
    next => cases opened

theorem step_connect {peer : UdpClient} {keys : SessionKeys} (now : Int64) (place : s.pc = .connect)
    (connects : (udpHandshakeClient lib b cfg.asymPriv cfg.peer peer).1 = some keys) :
    step lib b cfg s (.connect true true peer now) = some { s with pc := .poll, keys := keys, lastKa := now } := by
  simp only [step, place, Bool.not_true, Bool.false_eq_true, if_false, connects]

/-- The client drains its socket, and the datagram is a packet of its session. -/
structure Accepts (b : Backend) (d pkt : Octets) (s : TunUdpClient) : Prop where
  place : s.pc = .udp
  parse : ∃ flags, frameParseExplicit b (d.take udpMaxDgram) s.keys.decKey = .ok ⟨frameData, flags, pkt⟩
  packet : pkt ≠ []

/-- The packet is written, and the client would write it again. -/
theorem Accepts.again {d pkt : Octets} (acc : s.Accepts b d pkt) (lib : OpenSsl) (cfg : ClientConfig) :
    ∃ t, step lib b cfg s (.recv (.dgram d) []) = some t ∧ s.opens b (.recv (.dgram d) []) = some (d, pkt) ∧
      t.wrote = s.wrote ++ [pkt] ∧ t.Accepts b d pkt := by
  obtain ⟨place, ⟨flags, parse⟩, packet⟩ := acc
  have some_ : d ≠ [] := by
    rintro rfl
    cases parse
  refine ⟨{ s with wrote := s.wrote ++ [pkt] }, ?_, ?_, rfl, place, ⟨flags, parse⟩, packet⟩
  · simp [step, place, some_, onDatagram, parse, packet, tunWriteRest]
  · simp [opens, brings, place, packetOf_ok parse, packet, takesRest]

end TunUdpClient

/-! ### At most once -/

/-- What was written to the device since `old`: for each entry of the log one after the other the pieces of a packet,
    from its start, of a datagram that was made, and for no datagram more often than it was made. -/
structure WrittenOnce {σ : Type} (old wrote : List Octets) (c : Channel σ Octets UInt8) : Prop where
  all : wrote = old ++ c.log.flatMap Prod.snd
  parts : ∀ y ∈ c.log, y.1 ∈ c.made ∧ y.2.flatten <+: y.1.2
  once : ∀ d, c.times d ≤ c.built d

/-- The packets of a session are written once in every run of the server or of the client in which nothing is
    written of a datagram more often than the peer has built it. A step that does so is the first one after which
    they are not. -/
theorem udp_packets_written_once (lib : OpenSsl) (b b' : Backend) (key : Block) :
    (∀ (cfg : UdpConfig) (s : UdpServer) (c : Channel UdpServer Octets UInt8),
      (Machine.Steps (UdpServer.link lib b b' cfg key).next (fun c ev _ => (UdpServer.link lib b b' cfg key).NoCopy c ev)
        (.start s) c → WrittenOnce s.wrote c.receiver.wrote c) ∧
      ∀ ev c', WrittenOnce s.wrote c.receiver.wrote c → (UdpServer.link lib b b' cfg key).next c ev = some c' →
        (WrittenOnce s.wrote c'.receiver.wrote c' ↔ (UdpServer.link lib b b' cfg key).NoCopy c ev)) ∧
    (∀ (cfg : ClientConfig) (s : TunUdpClient) (c : Channel TunUdpClient Octets UInt8),
      (Machine.Steps (TunUdpClient.link lib b b' cfg key).next
        (fun c ev _ => (TunUdpClient.link lib b b' cfg key).NoCopy c ev) (.start s) c →
          WrittenOnce s.wrote c.receiver.wrote c) ∧
      ∀ ev c', WrittenOnce s.wrote c.receiver.wrote c → (TunUdpClient.link lib b b' cfg key).next c ev = some c' →
        (WrittenOnce s.wrote c'.receiver.wrote c' ↔ (TunUdpClient.link lib b b' cfg key).NoCopy c ev)) := by
  refine ⟨fun cfg s c => ⟨fun run => ?_, fun ev c' written taken => ?_⟩,
    fun cfg s c => ⟨fun run => ?_, fun ev c' written taken => ?_⟩⟩
  · have acc := Link.accounts run
    exact ⟨acc.all, acc.parts, onceEach_of_noCopy run⟩
  · have acc : (UdpServer.link lib b b' cfg key).Accounts s.wrote c' := .step ⟨written.all, written.parts⟩ taken
    exact ⟨fun h => (onceEach_step_iff written.once taken).mp h.once,
      fun fresh => ⟨acc.all, acc.parts, (onceEach_step_iff written.once taken).mpr fresh⟩⟩
  · have acc := Link.accounts run
    exact ⟨acc.all, acc.parts, onceEach_of_noCopy run⟩
  · have acc : (TunUdpClient.link lib b b' cfg key).Accounts s.wrote c' := .step ⟨written.all, written.parts⟩ taken
    exact ⟨fun h => (onceEach_step_iff written.once taken).mp h.once,
      fun fresh => ⟨acc.all, acc.parts, (onceEach_step_iff written.once taken).mpr fresh⟩⟩

/-! ### Copies -/

/-- A frame that the peer builds for its session is accepted as a packet. -/
theorem wire_accepted {b b' : Backend} {key : Block} {flags : UInt8} {pkt d : Octets} {r : Word 8}
    (wire : Outgoing.wire b' key ⟨frameData, flags, pkt, some r⟩ = some d) (short : pkt.length ≤ 1500) :
    frameParseExplicit b (d.take udpMaxDgram) key = .ok ⟨frameData, flags, pkt⟩ := by
  have len := (length_frameBuildExplicit wire).2
  rw [List.take_of_length_le (by simp only [len, udpMaxDgram, frameExplicitHeaderLen, aegisTagLen]; omega)]
  exact frameParseExplicit_frameBuildExplicit wire

/-- However many copies of a packet come, the server writes them all. -/
theorem UdpServer.writes_copies {b b' : Backend} {s : UdpServer} {key : Block} {sender : SockAddr} {o : Outgoing}
    {d : Octets} (lib : OpenSsl) (cfg : UdpConfig) (wire : o.wire b' key = some d)
    (acc : s.Accepts b sender d o.payload) (n : Nat) :
    ∃ c, Machine.Steps (link lib b b' cfg key).next (fun _ _ _ => True) (.start s) c ∧ c.made = [(d, o.payload)] ∧
      c.log = List.replicate n ((d, o.payload), [o.payload]) := by
  have make : (link lib b b' cfg key).make o = some (d, o.payload) := congrArg (Option.map (·, o.payload)) wire
  obtain ⟨c, run, -, copies⟩ := exists_copies (link lib b b' cfg key) make
    (fun u (acc : u.Accepts b sender d o.payload) =>
      ⟨.recv true (.dgram d sender) 0 (bobHost 0) [], acc.again lib cfg 0 (bobHost 0)⟩) acc n
  exact ⟨c, run, copies⟩

/-- However many copies of a packet come, the client writes them all. -/
theorem TunUdpClient.writes_copies {b b' : Backend} {s : TunUdpClient} {key : Block} {o : Outgoing} {d : Octets}
    (lib : OpenSsl) (cfg : ClientConfig) (wire : o.wire b' key = some d) (acc : s.Accepts b d o.payload) (n : Nat) :
    ∃ c, Machine.Steps (link lib b b' cfg key).next (fun _ _ _ => True) (.start s) c ∧ c.made = [(d, o.payload)] ∧
      c.log = List.replicate n ((d, o.payload), [o.payload]) := by
  have make : (link lib b b' cfg key).make o = some (d, o.payload) := congrArg (Option.map (·, o.payload)) wire
  obtain ⟨c, run, -, copies⟩ := exists_copies (link lib b b' cfg key) make
    (fun u (acc : u.Accepts b d o.payload) => ⟨.recv (.dgram d) [], acc.again lib cfg⟩) acc n
  exact ⟨c, run, copies⟩

/-- A packet of one byte. -/
def ping : Outgoing := ⟨frameData, 0, [1], some (Word.zero 8)⟩

theorem ping_wire (key : Block) : ∃ d, ping.wire .pureC key = some d :=
  ⟨_, frameBuildExplicit_of_le (by decide)⟩

def aliceConfig : ClientConfig := ⟨alice.priv, bob.pub, 0⟩

theorem alice_connects :
    ∃ keys, (udpHandshakeClient udpSsl .pureC aliceConfig.asymPriv aliceConfig.peer aliceClient).1 = some keys := by
  have hinit := meeting_aliceClient.client_init .pureC udpSsl_alice_bob udpSsl_alice_bob
  have known : alice.pub ∈ [carolPub, alice.pub] := by simp
  obtain ⟨init, offer, hinit', -, -, htry, -, hclient⟩ := meeting_aliceClient.agree .pureC .pureC known (by
    intro p hp hne ee es hee hes
    cases hee.symm.trans udpSsl_alice_bob
    cases hes.symm.trans udpSsl_alice_bob
    rcases List.mem_pair.mp hp with rfl | rfl
    · exact carol_wrongKey
    · exact absurd rfl hne)
  cases hinit.symm.trans hinit'
  cases bob_offers_second.symm.trans htry
  obtain ⟨keys, -, connects, -⟩ := hclient [] rfl
  exact ⟨keys, connects⟩

/-- Carol has a session with Bob's server and builds a packet. -/
theorem carol_pings :
    ∃ s key d, UdpServer.Reachable udpSsl .pureC bobConfig s ∧ s.sessions.map (·.decKey) = [key] ∧
      ping.wire .pureC key = some d ∧ s.Accepts .pureC (natClient 4000) d ping.payload := by
  obtain ⟨s, reached, hpc, -, hsessions, -⟩ := UdpServer.carol_joined 4000
  obtain ⟨d, wire⟩ := ping_wire (bobOffer 0 bobCarolHash 1000).keys.decKey
  exact ⟨s, _, d, reached, by rw [hsessions]; rfl, wire, ⟨false, hpc⟩,
    ⟨_, hsessions, rfl, rfl, 0, wire_accepted wire (by decide)⟩, by decide⟩

/-- Alice's client has connected to Bob, who builds a packet. -/
theorem alice_pinged :
    ∃ s d, Machine.Steps (TunUdpClient.step udpSsl .pureC aliceConfig) (fun _ _ _ => True) .init s ∧ s.wrote = [] ∧
      ping.wire .pureC s.keys.decKey = some d ∧ s.Accepts .pureC d ping.payload := by
  obtain ⟨keys, connects⟩ := alice_connects
  obtain ⟨d, wire⟩ := ping_wire keys.decKey
  have first := TunUdpClient.step_connect (s := .init) 1000 rfl connects
  have second : TunUdpClient.step udpSsl .pureC aliceConfig ⟨.poll, keys, 1000, [], []⟩ (.round true (.ready true false)) =
      some ⟨.udp, keys, 1000, [], []⟩ := rfl
  exact ⟨_, d, .tail (.tail .refl first trivial) second trivial, rfl, wire, rfl, ⟨0, wire_accepted wire (by decide)⟩,
    by decide⟩

/-- One datagram, delivered twice, is written twice: by Bob's server in Carol's session, and by Alice's
    client in her session with Bob. -/
theorem udp_packet_written_twice :
    (∃ s c key, UdpServer.Reachable udpSsl .pureC bobConfig s ∧ s.sessions.map (·.decKey) = [key] ∧
      Machine.Steps (UdpServer.link udpSsl .pureC .pureC bobConfig key).next (fun _ _ _ => True) (.start s) c ∧
      c.made.length = 1 ∧ c.receiver.wrote = s.wrote ++ [[1], [1]] ∧ ¬ WrittenOnce s.wrote c.receiver.wrote c) ∧
    ∃ s c, Machine.Steps (TunUdpClient.step udpSsl .pureC aliceConfig) (fun _ _ _ => True) .init s ∧
      Machine.Steps (TunUdpClient.link udpSsl .pureC .pureC aliceConfig s.keys.decKey).next (fun _ _ _ => True) (.start s) c ∧
      c.made.length = 1 ∧ c.receiver.wrote = [[1], [1]] ∧ ¬ WrittenOnce s.wrote c.receiver.wrote c := by
  constructor
  · obtain ⟨s, key, d, reached, keys, wire, acc⟩ := carol_pings
    obtain ⟨c, run, made, log⟩ := UdpServer.writes_copies udpSsl bobConfig wire acc 2
    have wrote := (Link.accounts run).all
    rw [log] at wrote
    exact ⟨s, c, key, reached, keys, run, by rw [made]; rfl, wrote, fun h =>
      not_onceEach_of_copies made log (by decide) h.once⟩
  · obtain ⟨s, d, reached, none, wire, acc⟩ := alice_pinged
    obtain ⟨c, run, made, log⟩ := TunUdpClient.writes_copies udpSsl aliceConfig wire acc 2
    have wrote : c.receiver.wrote = s.wrote ++ _ := (Link.accounts run).all
    rw [log, none] at wrote
    exact ⟨s, c, reached, run, by rw [made]; rfl, wrote, fun h => not_onceEach_of_copies made log (by decide) h.once⟩

theorem udp_packets_written_once_ping :
    (∃ s key, ∃ c : Channel UdpServer Octets UInt8, UdpServer.Reachable udpSsl .pureC bobConfig s ∧
      s.sessions.map (·.decKey) = [key] ∧ c.made.length = 1 ∧ c.receiver.wrote = s.wrote ++ [[1]] ∧
      WrittenOnce s.wrote c.receiver.wrote c) ∧
    ∃ s, ∃ c : Channel TunUdpClient Octets UInt8,
      Machine.Steps (TunUdpClient.step udpSsl .pureC aliceConfig) (fun _ _ _ => True) .init s ∧ c.made.length = 1 ∧
      c.receiver.wrote = s.wrote ++ [[1]] ∧ WrittenOnce s.wrote c.receiver.wrote c := by
  constructor
  · obtain ⟨s, key, d, reached, keys, wire, acc⟩ := carol_pings
    obtain ⟨t, ran, opens, grown, -⟩ := acc.again udpSsl bobConfig 0 (bobHost 0)
    obtain ⟨c, run, made, -, rfl⟩ := exists_once (UdpServer.link udpSsl .pureC .pureC bobConfig key)
      (s := s) (e := .recv true (.dgram d (natClient 4000)) 0 (bobHost 0) []) (x := ping)
      (congrArg (Option.map (·, ping.payload)) wire) ran opens grown
    have once := ((udp_packets_written_once udpSsl .pureC .pureC key).1 bobConfig s c).1 run
    exact ⟨s, key, c, reached, keys, by rw [made]; rfl, grown, once⟩
  · obtain ⟨s, d, reached, -, wire, acc⟩ := alice_pinged
    obtain ⟨t, ran, opens, grown, -⟩ := acc.again udpSsl aliceConfig
    obtain ⟨c, run, made, -, rfl⟩ :=
      exists_once (TunUdpClient.link udpSsl .pureC .pureC aliceConfig s.keys.decKey)
        (s := s) (e := .recv (.dgram d) []) (x := ping) (congrArg (Option.map (·, ping.payload)) wire) ran opens grown
    have once := ((udp_packets_written_once udpSsl .pureC .pureC s.keys.decKey).2 aliceConfig s c).1 run
    exact ⟨s, c, reached, by rw [made]; rfl, grown, once⟩

end AegisTunnel
