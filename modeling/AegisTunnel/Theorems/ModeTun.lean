import AegisTunnel.ModeTun
import AegisTunnel.Theorems.Sending

/-! Where the packets of the TUN device go when several clients are connected: to the client of whichever child
    has read them. -/

namespace AegisTunnel
open Octets

/-! ### Packets out of an endpoint -/

/-- The payloads of the DATA frames that were built. -/
def Endpoint.dataOut (e : Endpoint) : List Octets :=
  (e.log.built.filter fun r => r.frame.type == frameData).map fun r => r.frame.payload

section
variable {lib : OpenSsl} {b : Backend} {e e' : Endpoint} {ev : Ev}

theorem dataOut_append {r : FrameRec} (built : e'.log.built = e.log.built ++ [r]) :
    e'.dataOut = e.dataOut ++ if r.frame.type = frameData then [r.frame.payload] else [] := by
  rw [Endpoint.dataOut, built, List.filter_append, List.map_append, Endpoint.dataOut]
  by_cases data : r.frame.type = frameData
  · simp [data]
  · simp [data]

theorem dataOut_congr (built : e'.log.built = e.log.built) : e'.dataOut = e.dataOut := by
  rw [Endpoint.dataOut, built, Endpoint.dataOut]

theorem not_sendsData_readStep {drained : Nat} {rev : Revents} {k : Offer} (nothing : k.taken frameMaxPayload = [])
    (other : e.pc.sendsData = false) : (readStep b e drained rev k).pc.sendsData = false := by
  cases k with
  | data x xs => cases nothing
  | eof =>
    simp only [readStep, Endpoint.build]
    split
    · split <;> rfl
    · rfl
  | eintr => exact other
  | again =>
    have drains := drains_encryptedPc e.tun rev
    show (encryptedPc e.tun rev).sendsData = false
    cases pc : encryptedPc e.tun rev <;> first | rfl | (rw [pc] at drains; cases drains)
  | error => rfl

theorem built_sendDataRound (e : Endpoint) (pending : Octets) (drained : Nat) (rev : Revents) (k : Sent) :
    (sendDataRound e pending drained rev k).log.built = e.log.built := by
  simp only [sendDataRound]
  split <;> rfl

/-- Without bytes that are read no DATA frame is built. -/
theorem dataOut_idle (taken : step lib b e ev = some e') (nothing : ev.bytesRead = []) : e'.dataOut = e.dataOut := by
  cases (step_effect taken).hands with
  | send y built => exact dataOut_congr built
  | cut y built => exact dataOut_congr built
  | build r idle built sent next genuine data =>
    have other : r.frame.type ≠ frameData := by
      intro type
      have sends := data type
      have drains : e'.pc.drains = true := by
        cases pc : e'.pc <;> rw [pc] at sends <;> first | rfl | cases sends
      rcases drain_of_step taken drains with ⟨rev, _, _, rfl⟩ | ⟨drained, rev, k, at_, rfl, rfl⟩ |
          ⟨pending, drained, rev, k, at_, rfl, rfl⟩
      · cases sends
      · rw [not_sendsData_readStep nothing (by rw [at_]; rfl)] at sends
        cases sends
      · rw [built_sendDataRound] at built
        simp at built
    rw [dataOut_append built, if_neg other, List.append_nil]

/-- What is read goes into one DATA frame, if the counter has room. -/
theorem dataOut_read (taken : step lib b e ev = some e') (some_ : ev.bytesRead ≠ []) :
    e'.dataOut = e.dataOut ++ if e.tun.encNonce < nonceOverflowLimit then [ev.bytesRead] else [] := by
  have effect := step_effect taken
  rcases effect.reads with ⟨rs, built, read, room⟩ | ⟨built, full⟩
  · rw [readPt_step taken] at read
    have carried := List.append_cancel_left read
    rw [← carried] at room
    rw [if_pos (room some_)]
    cases effect.hands with
    | build r idle built' =>
      obtain rfl : [r] = rs := List.append_cancel_left (built'.symm.trans built)
      rw [List.flatMap_singleton, FrameRec.data] at carried
      split at carried
      next data => rw [dataOut_append built', if_pos data, carried]
      next => exact absurd carried some_
    | send y built' =>
      obtain rfl : [] = rs := List.append_cancel_left ((List.append_nil _).trans (built'.symm.trans built))
      exact absurd carried some_
    | cut y built' =>
      obtain rfl : [] = rs := List.append_cancel_left ((List.append_nil _).trans (built'.symm.trans built))
      exact absurd carried some_
  · rw [dataOut_congr built, if_neg (UInt64.not_lt.mpr full), List.append_nil]

end

/-! ### Steps of the server -/

/-- The packet that a `read` returns. -/
def Ev.packet? : Ev → Option Octets
  | .read (.data x xs) => some (x :: xs)
  | _ => none

theorem bytesRead_of_packet {ev : Ev} {pkt : Octets} (h : ev.packet? = some pkt) (short : pkt.length ≤ frameMaxPayload) :
    ev.bytesRead = pkt ∧ pkt ≠ [] := by
  unfold Ev.packet? at h
  split at h
  · cases h
    exact ⟨List.take_of_length_le short, List.cons_ne_nil _ _⟩
  · cases h

theorem bytesRead_of_no_packet {ev : Ev} (h : ev.packet? = none) : ev.bytesRead = [] := by
  cases ev with
  | read k => cases k <;> first | rfl | cases h
  | _ => rfl

/-- What a step can do to the server. -/
inductive TunEffect (lib : OpenSsl) (b : Backend) (keepalive : Int64) (s : TunServer) : TunEvent → TunServer → Prop where
  | packet {pkt} (short : pkt.length ≤ frameMaxPayload) :
      TunEffect lib b keepalive s (.packet pkt) { s with queue := s.queue ++ [pkt] }
  | joins {addr keys e} (start : Mode.server.start b keys keepalive = some e) :
      TunEffect lib b keepalive s (.joins addr keys) { s with children := s.children ++ [⟨addr, e⟩] }
  /-- A child takes a step and reads no packet. -/
  | moves {i ev c e} (at_ : s.children[i]? = some c) (quiet : ev.packet? = none)
      (taken : step lib b c.ep ev = some e) :
      TunEffect lib b keepalive s (.child i ev) { s with children := s.children.set i ⟨c.addr, e⟩ }
  | reads {i ev c e pkt rest} (at_ : s.children[i]? = some c) (event : ev.packet? = some pkt)
      (queue : s.queue = pkt :: rest) (taken : step lib b c.ep ev = some e) :
      TunEffect lib b keepalive s (.child i ev)
        ⟨rest, s.children.set i ⟨c.addr, e⟩, s.handed ++ [⟨i, s.ownerOf (ipDstAddr pkt), pkt⟩]⟩

namespace TunServer
variable {lib : OpenSsl} {b : Backend} {keepalive : Int64} {s s' : TunServer}

theorem reads_cases {i : Nat} {ev : Ev} (h : s.reads i ev = some s') :
    ev.packet? = none ∧ s' = s ∨ ∃ pkt rest, ev.packet? = some pkt ∧ s.queue = pkt :: rest ∧
      s' = { s with queue := rest, handed := s.handed ++ [⟨i, s.ownerOf (ipDstAddr pkt), pkt⟩] } := by
  cases ev with
  | read k =>
    cases k with
    | data x xs =>
      simp only [reads] at h
      split at h
      next => cases h
      next pkt rest queue =>
        split at h
        next same =>
          subst same
          exact .inr ⟨_, rest, rfl, queue, (Option.some.inj h).symm⟩
        next => cases h
    | again =>
      simp only [reads] at h
      split at h
      · exact .inl ⟨rfl, (Option.some.inj h).symm⟩
      · cases h
    | eof | eintr | error => exact .inl ⟨rfl, (Option.some.inj h).symm⟩
  | _ => exact .inl ⟨rfl, (Option.some.inj h).symm⟩

theorem step_cases {ev : TunEvent} (h : s.step lib b keepalive ev = some s') : TunEffect lib b keepalive s ev s' := by
  cases ev with
  | packet pkt =>
    simp only [step] at h
    split at h
    next => cases h
    next short => exact Option.some.inj h ▸ .packet (Nat.not_lt.mp short)
  | joins addr keys =>
    simp only [step] at h
    split at h
    next => cases h
    next =>
      obtain ⟨e, start, rfl⟩ := Option.map_eq_some_iff.mp h
      exact .joins start
  | child i ev =>
    simp only [step] at h
    split at h
    next c s₁ at_ read =>
      obtain ⟨e, taken, rfl⟩ := Option.map_eq_some_iff.mp h
      rcases reads_cases read with ⟨quiet, rfl⟩ | ⟨pkt, rest, event, queue, rfl⟩
      · exact .moves at_ quiet taken
      · exact .reads at_ event queue taken
    next => cases h

/-! ### Where the packets go -/

/-- The packets that the child `i` has read. -/
def packetsOf (s : TunServer) (i : Nat) : List Octets := (s.handed.filter fun h => h.child == i).map Handed.packet

/-- Each child has sent on the packets that it has read, and those for a client are for its own. -/
structure Delivers (s : TunServer) : Prop where
  carried : ∀ (i : Nat) (c : TunChild), s.children[i]? = some c → c.ep.dataOut = s.packetsOf i
  own : ∀ h ∈ s.handed, ∀ j, h.owner = some j → h.child = j

/-- A packet for a connected client is read by the child of this client, and each packet with room in the counter. -/
def OwnPackets (s : TunServer) (ev : TunEvent) : Prop :=
  ∀ i call pkt c, ev = .child i call → call.packet? = some pkt → s.children[i]? = some c →
    c.ep.tun.encNonce < nonceOverflowLimit ∧ ∀ j, s.ownerOf (ipDstAddr pkt) = some j → j = i

/-- What holds in every state. -/
structure Sound (s : TunServer) : Prop where
  short : ∀ pkt ∈ s.queue, pkt.length ≤ frameMaxPayload
  known : ∀ h ∈ s.handed, h.child < s.children.length
  sending : ∀ (i : Nat) (c : TunChild), s.children[i]? = some c → c.connected = true → ∃ parts, HandedOver 1 c.ep parts

theorem connected_eq (c : TunChild) : c.connected = !c.ep.pc.isReturned := by
  unfold TunChild.connected Pc.isReturned
  cases c.ep.pc <;> rfl

theorem handedOver_start {keys : SessionKeys} {e : Endpoint} (h : Mode.server.start b keys keepalive = some e) :
    HandedOver 1 e [] ∧ e.dataOut = [] := by
  obtain ⟨idle, unsent, _⟩ := unsent_start h
  simp only [Mode.start, Mode.before] at h
  obtain ⟨wire, _, rfl⟩ := Option.map_eq_some_iff.mp h
  exact ⟨.start idle unsent, rfl⟩

/-- A child is what it was, or the one that has taken a step. -/
theorem child_of_set {i j : Nat} {c d : TunChild} {cs : List TunChild} (h : (cs.set i c)[j]? = some d) :
    j = i ∧ d = c ∨ j ≠ i ∧ cs[j]? = some d := by
  by_cases same : i = j
  · subst same
    rw [List.getElem?_set_self'] at h
    obtain ⟨_, _, rfl⟩ := Option.map_eq_some_iff.mp h
    exact .inl ⟨rfl, rfl⟩
  · rw [List.getElem?_set_ne same] at h
    exact .inr ⟨fun eq => same eq.symm, h⟩

theorem Sound.step {ev : TunEvent} (inv : s.Sound) (taken : s.step lib b keepalive ev = some s') : s'.Sound := by
  -- A child goes on sending whole frames, or it has returned.
  have sends : ∀ {i : Nat} {c e call}, s.children[i]? = some c → AegisTunnel.step lib b c.ep call = some e →
      ∀ {j : Nat} {d : TunChild},
      (s.children.set i ⟨c.addr, e⟩)[j]? = some d → d.connected = true → ∃ parts, HandedOver 1 d.ep parts := by
    intro i c e call at_ stepped j d found running
    rcases child_of_set found with ⟨rfl, rfl⟩ | ⟨_, found⟩
    · obtain ⟨parts, handed⟩ := inv.sending _ c at_ (by rw [connected_eq, isReturned_of_step stepped]; rfl)
      rw [connected_eq, Bool.not_eq_true'] at running
      exact handed.step (AegisTunnel.step_effect stepped).hands running
    · exact inv.sending j d found running
  cases step_cases taken with
  | @packet pkt short =>
    refine ⟨fun q member => ?_, inv.known, inv.sending⟩
    rcases List.mem_append.mp member with before | new
    · exact inv.short q before
    · obtain rfl := List.mem_singleton.mp new
      exact short
  | @joins addr keys e start =>
    refine ⟨inv.short, fun h member => ?_, fun j d found running => ?_⟩
    · rw [List.length_append]
      exact Nat.lt_add_right _ (inv.known h member)
    · rcases List.mem_append.mp (List.mem_of_getElem? found) with before | new
      · obtain ⟨k, found⟩ := List.getElem?_of_mem before
        exact inv.sending k d found running
      · obtain rfl := List.mem_singleton.mp new
        exact ⟨[], (handedOver_start start).1⟩
  | moves at_ quiet stepped =>
    refine ⟨inv.short, fun h member => ?_, fun j d => sends at_ stepped⟩
    rw [List.length_set]
    exact inv.known h member
  | @reads i call c e pkt rest at_ event queue stepped =>
    refine ⟨fun q member => inv.short q (by rw [queue]; exact List.mem_cons_of_mem _ member), fun h member => ?_,
      fun j d => sends at_ stepped⟩
    rw [List.length_set]
    rcases List.mem_append.mp member with before | new
    · exact inv.known h before
    · obtain rfl := List.mem_singleton.mp new
      exact (List.getElem?_eq_some_iff.mp at_).1

theorem packetsOf_append (s : TunServer) (h : Handed) (i : Nat) (queue : List Octets) (children : List TunChild) :
    packetsOf ⟨queue, children, s.handed ++ [h]⟩ i = s.packetsOf i ++ if h.child = i then [h.packet] else [] := by
  rw [packetsOf, List.filter_append, List.map_append, packetsOf]
  by_cases same : h.child = i
  · simp [same]
  · simp [same]

theorem OwnPackets.of_no_packet {ev : TunEvent} (h : ∀ i call pkt, ev = .child i call → call.packet? ≠ some pkt) :
    s.OwnPackets ev := fun i call pkt _ event read => absurd read (h i call pkt event)

/-- A step that reads no packet keeps all packets where they are. -/
theorem Delivers.moves {i : Nat} {c : TunChild} {e : Endpoint} {call : Ev} (delivers : s.Delivers)
    (at_ : s.children[i]? = some c)
    (quiet : call.packet? = none) (stepped : AegisTunnel.step lib b c.ep call = some e) :
    Delivers { s with children := s.children.set i ⟨c.addr, e⟩ } := by
  refine ⟨fun j d found => ?_, delivers.own⟩
  rcases child_of_set found with ⟨rfl, rfl⟩ | ⟨_, found⟩
  · exact (dataOut_idle stepped (bytesRead_of_no_packet quiet)).trans (delivers.carried _ c at_)
  · exact delivers.carried j d found

/-- A packet that is read stays on its way exactly if it is read by its own child and has room. -/
theorem Delivers.reads {i : Nat} {c : TunChild} {e : Endpoint} {call : Ev} {pkt : Octets} {rest : List Octets}
    (delivers : s.Delivers) (at_ : s.children[i]? = some c) (event : call.packet? = some pkt)
    (short : pkt.length ≤ frameMaxPayload) (stepped : AegisTunnel.step lib b c.ep call = some e) :
    Delivers ⟨rest, s.children.set i ⟨c.addr, e⟩, s.handed ++ [⟨i, s.ownerOf (ipDstAddr pkt), pkt⟩]⟩ ↔
      s.OwnPackets (.child i call) := by
  obtain ⟨read, some_⟩ := bytesRead_of_packet event short
  have out := dataOut_read stepped (read ▸ some_)
  rw [read, delivers.carried i c at_] at out
  constructor
  · intro delivers' i' call' pkt' c' same event' at_'
    cases same
    cases at_.symm.trans at_'
    cases event.symm.trans event'
    refine ⟨?_, fun j owner => (delivers'.own _ (List.mem_append_right _ (List.mem_singleton_self _)) j owner).symm⟩
    have carried := delivers'.carried i ⟨c.addr, e⟩ (List.getElem?_set_self (List.getElem?_eq_some_iff.mp at_).1)
    rw [packetsOf_append, if_pos rfl] at carried
    have last := List.append_cancel_left (out.symm.trans carried)
    by_contra full
    rw [if_neg full] at last
    cases last
  · intro own
    obtain ⟨room, owner⟩ := own i call pkt c rfl event at_
    rw [if_pos room] at out
    refine ⟨fun j d found => ?_, fun h member j => ?_⟩
    · rw [packetsOf_append]
      rcases child_of_set found with ⟨rfl, rfl⟩ | ⟨other, found⟩
      · rw [if_pos rfl]
        exact out
      · rw [if_neg fun same => other same.symm, List.append_nil]
        exact delivers.carried j d found
    · rcases List.mem_append.mp member with before | new
      · exact delivers.own h before j
      · obtain rfl := List.mem_singleton.mp new
        exact fun own => (owner j own).symm

theorem Delivers.joins {addr : UInt32} {keys : SessionKeys} {e : Endpoint} (inv : s.Sound) (delivers : s.Delivers)
    (start : Mode.server.start b keys keepalive = some e) : Delivers { s with children := s.children ++ [⟨addr, e⟩] } := by
  refine ⟨fun j d found => ?_, delivers.own⟩
  by_cases old : j < s.children.length
  · rw [List.getElem?_append_left old] at found
    exact delivers.carried j d found
  · rw [List.getElem?_append_right (Nat.not_lt.mp old)] at found
    obtain rfl := List.mem_singleton.mp (List.mem_of_getElem? found)
    rw [(handedOver_start start).2]
    -- No packet has been read by a child that was not there.
    have none_ : s.handed.filter (fun h => h.child == j) = [] := by
      rw [List.filter_eq_nil_iff]
      intro h member same
      exact old (beq_iff_eq.mp same ▸ inv.known h member)
    exact (congrArg (List.map Handed.packet) none_).symm

theorem delivers_step {ev : TunEvent} (inv : s.Sound) (delivers : s.Delivers) (taken : s.step lib b keepalive ev = some s') :
    s'.Delivers ↔ s.OwnPackets ev := by
  cases step_cases taken with
  | packet short =>
    exact iff_of_true ⟨delivers.carried, delivers.own⟩ (.of_no_packet fun _ _ _ h => by cases h)
  | joins start => exact iff_of_true (delivers.joins inv start) (.of_no_packet fun _ _ _ h => by cases h)
  | moves at_ quiet stepped =>
    refine iff_of_true (delivers.moves at_ quiet stepped) (.of_no_packet fun i call pkt h read => ?_)
    cases h
    cases quiet.symm.trans read
  | @reads i call c e pkt rest at_ event queue stepped =>
    exact delivers.reads at_ event (inv.short pkt (by rw [queue]; exact List.mem_cons_self)) stepped

structure Routes (s : TunServer) : Prop where
  sound : s.Sound
  delivers : s.Delivers

theorem Routes.init : Routes init where
  sound := ⟨fun _ member => absurd member List.not_mem_nil, fun _ member => absurd member List.not_mem_nil,
    fun _ _ found => by cases found⟩
  delivers := ⟨fun _ _ found => (by cases found), fun _ member => absurd member List.not_mem_nil⟩

end TunServer

/-- In every run in which packets for connected clients are read by their own children, each with room in the
    counter, every child has sent on exactly the packets that it has read, as whole frames on the connection of
    its client as long as that lasts, and those for a client are for its own. The next step keeps that exactly
    if it is such a step. -/
theorem packets_to_own_client (lib : OpenSsl) (b : Backend) (keepalive : Int64) (s : TunServer)
    (run : Machine.Steps (TunServer.step lib b keepalive) (fun s ev _ => s.OwnPackets ev) TunServer.init s) :
    s.Delivers ∧
      (∀ (i : Nat) (c : TunChild), s.children[i]? = some c → c.connected = true → ∃ parts, HandedOver 1 c.ep parts) ∧
      ∀ ev s', s.step lib b keepalive ev = some s' → (s'.Delivers ↔ s.OwnPackets ev) := by
  have inv : s.Routes := run.invariant .init fun inv taken own =>
    ⟨inv.sound.step taken, (TunServer.delivers_step inv.sound inv.delivers taken).mpr own⟩
  exact ⟨inv.delivers, inv.sound.sending, fun ev s' => TunServer.delivers_step inv.sound inv.delivers⟩

/-! ### Two clients -/

def clientA : UInt32 := 0x0a000002
def clientB : UInt32 := 0x0a000003

/-- An IPv4 packet from 10.0.0.1 to 10.0.0.2, without a payload. -/
def packetForA : Octets := [0x45, 0, 0, 20, 0, 0, 0, 0, 64, 17, 0, 0, 10, 0, 0, 1, 10, 0, 0, 2]

/-- A packet for the first client comes while both are connected, and the child `i` is the one that reads it. -/
def packetRun (i : Nat) : List TunEvent :=
  [.joins clientA bobKeys, .joins clientB aliceKeys, .packet packetForA] ++
    ([.time 0, .time 0, .running true, .poll (.ready plaintextReady), .read (.ofOctets packetForA), .send (.took 40)].map
      (.child i))

theorem packet_to_other_client :
    ∃ s c, Machine.Steps (TunServer.step aliceBobSsl .pureC 0) (fun _ _ _ => True) TunServer.init s ∧
      s.ownerOf (ipDstAddr packetForA) = some 0 ∧ s.children[1]? = some c ∧ c.ep.dataOut = [packetForA] ∧
      c.ep.log.sent.length = 40 ∧ ¬ s.Delivers := by
  refine ⟨_, _, .of_exec (fun _ _ _ => true) (packetRun 1) (fun _ _ => trivial) rfl, rfl, rfl, rfl, rfl, fun delivers => ?_⟩
  have own := delivers.own ⟨1, some 0, packetForA⟩ (List.mem_singleton_self _) 0 rfl
  cases own

/-- The packet is for no client, or for the one of the child that reads it, and there is room for it. -/
def readsOwn (s : TunServer) : TunEvent → Bool
  | .child i (.read (.data x xs)) =>
    (s.ownerOf (ipDstAddr (x :: xs))).all (· == i) &&
      s.children[i]?.all fun c => c.ep.tun.encNonce < nonceOverflowLimit
  | _ => true

theorem ownPackets_of_readsOwn {s : TunServer} {ev : TunEvent} (h : readsOwn s ev = true) : s.OwnPackets ev := by
  rintro i call pkt c rfl read at_
  unfold Ev.packet? at read
  split at read
  · cases read
    obtain ⟨own, room⟩ := Bool.and_eq_true_iff.mp h
    rw [at_] at room
    refine ⟨of_decide_eq_true room, fun j owner => ?_⟩
    rw [owner] at own
    exact beq_iff_eq.mp own
  · cases read

theorem packets_to_own_client_two :
    ∃ s, Machine.exec (TunServer.step aliceBobSsl .pureC 0) (fun s ev _ => readsOwn s ev) TunServer.init (packetRun 0) =
        some s ∧
      s.packetsOf 0 = [packetForA] ∧ s.Delivers :=
  ⟨_, rfl, rfl, (packets_to_own_client aliceBobSsl .pureC 0 _
    (.of_exec (fun s ev _ => readsOwn s ev) (packetRun 0) (fun _ => ownPackets_of_readsOwn) rfl)).1⟩

end AegisTunnel
