import AegisTunnel.Theorems.Sync

/-! # What goes into a tunnel comes out of it

Over lossless streams and without re-keys no byte is lost: what one end has read is what the other has written, then
what it is about to write, then what the frames on their way hold. And over a network that does as it likes, an end
that has accepted a CLOSE frame has written all that the other end has read. -/

namespace AegisTunnel
open Octets Sequence

variable {lib : OpenSsl} {backend : Side → Backend} {b : Backend} {ev : Ev}

/-! ### Without loss -/

section
variable {s r r' : Endpoint} {way : Octets} {flight : List FrameRec}

/-- The frames that are accepted are those on their way, and those the peer has built. -/
theorem InFlight.authentic (inv : InFlight s r way flight) (taken : step lib b r ev = some r')
    (plain : r.pc.rekey? = none) : Authentic s r r' := by
  cases step_effect taken with
  | @accepted w f fr rev at_ room cut parsed =>
    obtain ⟨g, flight', rfl, rfl, ok⟩ := inv.first (b := b) cut
    cases ok.symm.trans parsed
    obtain ⟨known, key, -⟩ := inv.known g List.mem_cons_self
    have ctr : g.ctr = r.tun.decNonce := UInt64.toNat_inj.mp inv.numbered.of_cons.1
    intro f member
    rcases List.mem_append.mp member with before | new
    · exact .inl before
    · obtain rfl := List.mem_singleton.mp new
      refine .inr (List.mem_map.mpr ⟨g, known, ?_⟩)
      rw [FrameRec.core, FrameRec.core, key, inv.keyed, ctr]
  | respond at_ h => rw [at_] at plain; cases plain
  | initiate at_ h => rw [at_] at plain; cases plain
  | _ => exact fun f member => .inl member

/-- What `s` has built is what `r` has accepted, and then what is on its way. -/
theorem Flow.outgoing_eq {key : Block} {n k : Nat} (flow : Flow key n k s r) (inv : InFlight s r way flight) :
    s.outgoing k = r.log.accepted.map FrameRec.core ++ flight.map FrameRec.core := by
  have next := flow.receiver.next
  have rest : flight.map FrameRec.core = (s.outgoing k).drop r.log.accepted.length := by
    apply flow.sender.numbered.eq_drop
    · rw [← next]
      exact Numbered.of_map (f := FrameRec.core) inv.numbered
    · intro c member
      obtain ⟨f, flying, rfl⟩ := List.mem_map.mp member
      obtain ⟨known, fkey, -⟩ := inv.known f flying
      have le := inv.numbered.le_num flying
      exact flow.sender.mem_outgoing (List.mem_map_of_mem known) (fkey.trans flow.sender.keyed) (by omega)
    · have sent := flow.sender.next
      have count := inv.next
      rw [List.length_map]
      omega
  obtain ⟨t, order⟩ := flow.order
  rw [rest, ← order, ← List.length_map (f := FrameRec.core), List.drop_left]

theorem flatMap_core (l : List FrameRec) :
    (l.map FrameRec.core).flatMap (·.2.2.delivered) = l.flatMap (·.frame.delivered) := by
  rw [List.flatMap_map]
  rfl

theorem Flow.readPt_eq {key : Block} {n k : Nat} (flow : Flow key n k s r) (inv : InFlight s r way flight)
    (running : ∀ ret, r.pc ≠ .returned ret) :
    s.log.readPt = r.log.wrote ++ r.pc.unwritten ++ flight.flatMap (·.frame.delivered) := by
  rw [flow.sender.read, flow.outgoing_eq inv, List.flatMap_append, flatMap_core, flatMap_core,
    flow.receiver.all running]

/-- Without a byte on its way there is no frame on its way. -/
theorem InFlight.nil_of_bytes (inv : InFlight s r [] flight) (running : ∀ ret, s.pc ≠ .returned ret)
    (buffer : r.fr.rest = []) (unsent : s.pc.unsent = []) : flight = [] := by
  have all := inv.all running
  rw [buffer, unsent] at all
  cases flight with
  | nil => rfl
  | cons f flight =>
    obtain ⟨_, built⟩ := (inv.known f List.mem_cons_self).2.2.1
    rw [List.map_cons, List.flatten_cons] at all
    exact absurd (List.append_eq_nil_iff.mp all.symm).1 (frameBuild_ne_nil built)

end

/-- A step of one of two connected ends: none of them is in a re-key, and a keepalive is sent whole. -/
structure PlainStep (n : Net) (ev : Side × Ev) (n' : Net) : Prop where
  plain : ∀ side, (n'.ends.get side).pc.rekey? = none
  keepalive : ∀ wire k, (n.ends.get ev.1).pc = .sendKa wire → ev.2 = .send k → k.bytes wire = wire

/-- The two are in step, and there is a flow each way since `a₀` and `b₀`. -/
structure Joined (a₀ b₀ : Endpoint) (n : Net) : Prop where
  sync : InSync n
  twoWay : TwoWay a₀ b₀ n.ends

namespace Joined
variable {a₀ b₀ : Endpoint} {n n' : Net}

theorem start (freshA : Fresh a₀) (freshB : Fresh b₀) (there : Facing a₀ b₀) (back : Facing b₀ a₀) :
    Joined a₀ b₀ ⟨⟨a₀, b₀⟩, fun _ => []⟩ :=
  ⟨.fresh freshA freshB there back, .start freshA freshB there back⟩

theorem plain (inv : Joined a₀ b₀ n) (side : Side) : (n.ends.get side).pc.rekey? = none := by
  cases side with
  | a => exact inv.twoWay.plainA
  | b => exact inv.twoWay.plainB

theorem step {ev : Side × Ev} (inv : Joined a₀ b₀ n) (taken : n.step lib backend ev = some n') (good : PlainStep n ev n') :
    Joined a₀ b₀ n' := by
  have quiet : QuietStep (n.ends.get ev.1) ev.2 := by
    refine ⟨fun r own pending peer k here => ?_, good.keepalive⟩
    cases (inv.plain ev.1).symm.trans here
  refine ⟨inv.sync.step taken quiet, ?_⟩
  obtain ⟨side, ev⟩ := ev
  obtain ⟨e', stepped, -, rfl⟩ := net_step_inv taken
  have paired : n.ends.step lib backend (side, ev) = some (n.ends.set e' side) :=
    Option.map_eq_some_iff.mpr ⟨e', stepped, rfl⟩
  obtain ⟨flight, incoming⟩ := inv.sync.flight side.other
  rw [Side.other_other] at incoming
  have authentic := incoming.authentic stepped (inv.plain side)
  refine inv.twoWay.step paired ⟨good.plain .a, good.plain .b, ?_, ?_⟩
  · cases side with
    | a => exact authentic
    | b => exact fun f member => .inl member
  · cases side with
    | a => exact fun f member => .inl member
    | b => exact authentic

theorem flow (inv : Joined a₀ b₀ n) (side : Side) :
    ∃ key m k, Flow key m k (n.ends.get side) (n.ends.get side.other) := by
  cases side with
  | a => exact ⟨_, _, _, inv.twoWay.there⟩
  | b => exact ⟨_, _, _, inv.twoWay.back⟩

end Joined

/-- Over lossless streams, without re-keys and with every keepalive sent whole: the bytes read at one end are those that
the other has written, then those it is about to write, then those in the frames that it holds unparsed, that are
under way or that are still to be sent. Where there is no such frame, all that was read has arrived. -/
theorem stream_delivery (lib : OpenSsl) (backend : Side → Backend) (a₀ b₀ : Endpoint) (freshA : Fresh a₀) (freshB : Fresh b₀)
    (there : Facing a₀ b₀) (back : Facing b₀ a₀) (n : Net)
    (run : Machine.Steps (Net.step lib backend) PlainStep ⟨⟨a₀, b₀⟩, fun _ => []⟩ n) (side : Side)
    (runningS : ∀ ret, (n.ends.get side).pc ≠ .returned ret) (runningR : ∀ ret, (n.ends.get side.other).pc ≠ .returned ret) :
    (∃ flight : List FrameRec, (∀ f ∈ flight, f ∈ (n.ends.get side).log.built) ∧
      (n.ends.get side.other).fr.rest ++ n.way side ++ (n.ends.get side).pc.unsent = (flight.map FrameRec.wire).flatten ∧
      (n.ends.get side).log.readPt =
        (n.ends.get side.other).log.wrote ++ (n.ends.get side.other).pc.unwritten ++ flight.flatMap (·.frame.delivered)) ∧
    ((n.ends.get side.other).fr.rest = [] → n.way side = [] → (n.ends.get side).pc.unsent = [] →
      (n.ends.get side).log.readPt = (n.ends.get side.other).log.wrote ++ (n.ends.get side.other).pc.unwritten) := by
  have inv : Joined a₀ b₀ n := run.invariant (.start freshA freshB there back) fun inv taken good => inv.step taken good
  obtain ⟨flight, flying⟩ := inv.sync.flight side
  obtain ⟨key, m, k, flow⟩ := inv.flow side
  have read := flow.readPt_eq flying runningR
  refine ⟨⟨flight, fun f member => (flying.known f member).1, flying.all runningS, read⟩, fun buffer way unsent => ?_⟩
  rw [way] at flying
  rw [read, flying.nil_of_bytes runningS buffer unsent, List.flatMap_nil, List.append_nil]

/-- A check for `PlainStep`. -/
def plainNetStep (n : Net) (ev : Side × Ev) (n' : Net) : Bool :=
  (n.ends.get ev.1).pc.plain && n'.ends.a.pc.rekey?.isNone && n'.ends.b.pc.rekey?.isNone

theorem plain_of_check {n n' : Net} {ev : Side × Ev} (h : plainNetStep n ev n' = true) : PlainStep n ev n' := by
  simp only [plainNetStep, Bool.and_eq_true, Option.isNone_iff_eq_none] at h
  obtain ⟨⟨here, plainA⟩, plainB⟩ := h
  refine ⟨fun side => ?_, (quiet_of_plain here).keepalive⟩
  cases side with
  | a => exact plainA
  | b => exact plainB

/-- The byte that `alice` has read is in the frame on its way. -/
theorem stream_delivery_one_byte :
    ∃ (a₀ b₀ : Endpoint) (n : Net) (flight : List FrameRec), Mode.client.start .pureC aliceKeys 0 = some a₀ ∧
      Mode.server.start .pureC bobKeys 0 = some b₀ ∧ n.ends.a.log.readPt = [7] ∧ n.ends.b.log.wrote = [] ∧
      byteWire = (flight.map FrameRec.wire).flatten ∧ [7] = flight.flatMap (·.frame.delivered) := by
  obtain ⟨a₀, startA⟩ : ∃ a₀, Mode.client.start .pureC aliceKeys 0 = some a₀ := ⟨_, rfl⟩
  obtain ⟨b₀, startB⟩ : ∃ b₀, Mode.server.start .pureC bobKeys 0 = some b₀ := ⟨_, rfl⟩
  have facing := alice_faces_bob startA startB
  obtain ⟨n, first, way, atA, atB, read, buffer, wrote⟩ : ∃ n : Net,
      Machine.exec (Net.step aliceBobSsl fun _ => .pureC) plainNetStep ⟨⟨a₀, b₀⟩, fun _ => []⟩ byteRun = some n ∧
      n.way .a = byteWire.take 21 ∧ n.ends.a.pc = .read 1 plaintextReady ∧ n.ends.b.pc = .fill encryptedReady ∧
      n.ends.a.log.readPt = [7] ∧ n.ends.b.fr.rest = [] ∧ n.ends.b.log.wrote = [] := by
    cases startA
    cases startB
    exact ⟨_, rfl, rfl, rfl, rfl, rfl, rfl, rfl⟩
  rw [List.take_of_length_le length_byteWire.le] at way
  have run := Machine.Steps.of_exec plainNetStep byteRun (fun _ => plain_of_check) first
  obtain ⟨⟨flight, -, bytes, all⟩, -⟩ := stream_delivery aliceBobSsl (fun _ => .pureC) a₀ b₀ (.start startA) (.start startB)
    facing.1 facing.2 n run .a
    (fun ret stopped => by cases (show n.ends.a.pc = _ from stopped).symm.trans atA)
    (fun ret stopped => by cases (show n.ends.b.pc = _ from stopped).symm.trans atB)
  refine ⟨a₀, b₀, n, flight, startA, startB, read, wrote, ?_, ?_⟩
  · rw [← bytes, way, show (n.ends.get Side.a.other).fr.rest = [] from buffer,
      show (n.ends.get .a).pc = _ from atA]
    exact (List.append_nil _).symm
  · rw [show (n.ends.get .a).log.readPt = _ from read, show (n.ends.get Side.a.other).log.wrote = [] from wrote,
      show (n.ends.get Side.a.other).pc = _ from atB] at all
    exact all

/-! ### The end of a stream -/

/-- After a CLOSE frame is built nothing is left to do but to send it. -/
def Pc.closing : Pc → Prop
  | .sendClose _ | .returned _ => True
  | _ => False

theorem Pc.Quiet.not_closing {pc : Pc} (quiet : pc.Quiet) (running : ∀ ret, pc ≠ .returned ret) : ¬ pc.closing := by
  cases pc with
  | sendClose wire => exact quiet.elim
  | returned ret => exact absurd rfl (running ret)
  | _ => exact id

/-- A CLOSE frame is the last one that an endpoint builds. -/
def ClosesLast (k : Nat) (e : Endpoint) : Prop :=
  ∀ c ∈ e.outgoing k, c.2.2.type = frameClose → (e.outgoing k).getLast? = some c ∧ e.pc.closing

namespace ClosesLast
variable {k : Nat} {e e' : Endpoint}

theorem keep (inv : ClosesLast k e) (built : e'.log.built = e.log.built) (open_ : ¬ e.pc.closing) : ClosesLast k e' := by
  have out : e'.outgoing k = e.outgoing k := by rw [Endpoint.outgoing, Endpoint.outgoing, built]
  intro c member close
  rw [out] at member
  exact absurd (inv c member close).2 open_

theorem build {f : FrameRec} (inv : ClosesLast k e) (size : k ≤ e.log.built.length) (open_ : ¬ e.pc.closing)
    (built : e'.log.built = e.log.built ++ [f]) (closing : f.frame.type = frameClose → e'.pc.closing) :
    ClosesLast k e' := by
  have out : e'.outgoing k = e.outgoing k ++ [f.core] := by
    rw [Endpoint.outgoing, built, List.drop_append_of_le_length size, List.map_append]
    rfl
  intro c member close
  rw [out] at member ⊢
  rcases List.mem_append.mp member with before | new
  · exact absurd (inv c before close).2 open_
  · obtain rfl := List.mem_singleton.mp new
    exact ⟨List.getLast?_concat, closing close⟩

theorem step (inv : ClosesLast k e) (size : k ≤ e.log.built.length) (taken : step lib b e ev = some e')
    (plain : e.pc.rekey? = none) : ClosesLast k e' := by
  have running := running_of_step taken
  cases step_effect taken with
  | move at_ goes => exact inv.keep rfl (at_.not_closing running)
  | lost d at_ full => exact inv.keep rfl (at_.not_closing running)
  | data at_ room built =>
    exact inv.build size (at_.not_closing running) rfl fun h => absurd h (by decide : frameData ≠ frameClose)
  | close at_ room built => exact inv.build size (at_.not_closing running) rfl fun _ => trivial
  | keepalive at_ built =>
    exact inv.build size (by rw [at_]; exact id) rfl fun h => absurd h (by decide : frameKeepalive ≠ frameClose)
  | sentClose at_ => exact fun c member close => ⟨(inv c member close).1, trivial⟩
  | sent at_ | sendFailed at_ | sentKa at_ | filled at_ | accepted at_ | wrote at_ | writeFailed at_ =>
    exact inv.keep rfl (by rw [at_]; exact id)
  | respond at_ h => rw [at_] at plain; cases plain
  | initiate at_ h => rw [at_] at plain; cases plain

end ClosesLast

/-- After an accepted CLOSE frame the call has returned, with everything written that came before. -/
def StopsAtClose (e : Endpoint) : Prop :=
  ∀ f ∈ e.log.accepted, f.frame.type = frameClose →
    e.pc = .returned 0 ∧ e.log.wrote = e.log.accepted.flatMap (·.frame.delivered)

theorem StopsAtClose.step {key : Block} {n : Nat} {e e' : Endpoint} (inv : StopsAtClose e) (receiver : Receiver key n e)
    (taken : step lib b e ev = some e') (plain : e.pc.rekey? = none) : StopsAtClose e' := by
  have running := running_of_step taken
  have none_ : ∀ f ∈ e.log.accepted, f.frame.type ≠ frameClose :=
    fun f member close => running 0 (inv f member close).1
  cases step_effect taken with
  | @accepted w f fr rev at_ room cut parsed =>
    intro g member close
    rcases List.mem_append.mp member with before | new
    · exact absurd close (none_ g before)
    · obtain rfl := List.mem_singleton.mp new
      have all := receiver.all running
      rw [at_] at all
      have nothing : f.delivered = [] := if_pos (Or.inl close)
      refine ⟨if_pos close, ?_⟩
      show e.log.wrote = (e.log.accepted ++ [_]).flatMap _
      rw [List.flatMap_append, ← all]
      simp [Pc.unwritten, nothing]
  | respond at_ h => rw [at_] at plain; cases plain
  | initiate at_ h => rw [at_] at plain; cases plain
  | _ => exact fun f member close => absurd close (none_ f member)

/-- What flows from `s` to `r`, with what a CLOSE frame means on both sides. -/
structure Closable (key : Block) (n k : Nat) (s r : Endpoint) : Prop where
  flow : Flow key n k s r
  last : ClosesLast k s
  stops : StopsAtClose r

/-- With the CLOSE frame everything has arrived. -/
theorem Closable.complete {key : Block} {n k : Nat} {s r : Endpoint} (inv : Closable key n k s r) {f : FrameRec}
    (member : f ∈ r.log.accepted) (close : f.frame.type = frameClose) :
    r.pc = .returned 0 ∧ r.log.wrote = s.log.readPt ∧ s.pc.closing := by
  obtain ⟨stopped, wrote⟩ := inv.stops f member close
  have known : f.core ∈ r.log.accepted.map FrameRec.core := List.mem_map_of_mem member
  obtain ⟨last, closing⟩ := inv.last f.core (inv.flow.order.subset known) close
  have whole := inv.flow.sender.numbered.eq_of_last inv.flow.order last known
  refine ⟨stopped, ?_, closing⟩
  rw [wrote, inv.flow.sender.read, ← whole, flatMap_core]

/-- Both directions of an honest run, with the meaning of CLOSE frames. -/
structure BothClosable (a₀ b₀ : Endpoint) (p : Pair) : Prop where
  twoWay : TwoWay a₀ b₀ p
  lastA : ClosesLast a₀.log.built.length p.a
  lastB : ClosesLast b₀.log.built.length p.b
  stopsA : StopsAtClose p.a
  stopsB : StopsAtClose p.b

theorem BothClosable.start {a₀ b₀ : Endpoint} (freshA : Fresh a₀) (freshB : Fresh b₀) (there : Facing a₀ b₀)
    (back : Facing b₀ a₀) : BothClosable a₀ b₀ ⟨a₀, b₀⟩ := by
  have last : ∀ e : Endpoint, ClosesLast e.log.built.length e := by
    intro e c member
    rw [Endpoint.outgoing, List.drop_length] at member
    cases member
  have stops : ∀ {e : Endpoint}, Fresh e → StopsAtClose e := by
    intro e fresh f member
    rw [fresh.accepted] at member
    cases member
  exact ⟨.start freshA freshB there back, last a₀, last b₀, stops freshA, stops freshB⟩

theorem BothClosable.step {a₀ b₀ : Endpoint} {p q : Pair} {ev : Side × Ev} (inv : BothClosable a₀ b₀ p)
    (taken : p.step lib backend ev = some q) (good : HonestStep p q) : BothClosable a₀ b₀ q := by
  have twoWay := inv.twoWay.step taken good
  obtain ⟨side, ev⟩ := ev
  cases side with
  | a =>
    obtain ⟨a, stepped, rfl⟩ := Option.map_eq_some_iff.mp taken
    exact ⟨twoWay, inv.lastA.step inv.twoWay.there.sender.size stepped inv.twoWay.plainA, inv.lastB,
      inv.stopsA.step inv.twoWay.back.receiver stepped inv.twoWay.plainA, inv.stopsB⟩
  | b =>
    obtain ⟨b, stepped, rfl⟩ := Option.map_eq_some_iff.mp taken
    exact ⟨twoWay, inv.lastA, inv.lastB.step inv.twoWay.back.sender.size stepped inv.twoWay.plainB,
      inv.stopsA, inv.stopsB.step inv.twoWay.there.receiver stepped inv.twoWay.plainB⟩

/-- Whatever the network delivers: an end that has accepted a CLOSE frame has returned, and it has written all that the
other end has read and will read. -/
theorem close_completes (lib : OpenSsl) (backend : Side → Backend) (a₀ b₀ : Endpoint) (freshA : Fresh a₀) (freshB : Fresh b₀)
    (there : Facing a₀ b₀) (back : Facing b₀ a₀) (p : Pair)
    (run : Machine.Steps (Pair.step lib backend) (fun p _ q => HonestStep p q) ⟨a₀, b₀⟩ p) (side : Side) (f : FrameRec)
    (member : f ∈ (p.get side.other).log.accepted) (close : f.frame.type = frameClose) :
    (p.get side.other).pc = .returned 0 ∧ (p.get side.other).log.wrote = (p.get side).log.readPt ∧
      (p.get side).pc.closing := by
  have inv : BothClosable a₀ b₀ p :=
    run.invariant (.start freshA freshB there back) fun inv taken good => inv.step taken good
  cases side with
  | a => exact Closable.complete ⟨inv.twoWay.there, inv.lastA, inv.stopsB⟩ member close
  | b => exact Closable.complete ⟨inv.twoWay.back, inv.lastB, inv.stopsA⟩ member close

/-- `alice` finds the end of the plaintext and sends a CLOSE frame; `bob` is about to receive. -/
def closeRun : List (Side × Ev) :=
  [(.a, .time 0), (.a, .time 0), (.a, .running true), (.a, .poll (.ready plaintextReady)), (.a, .read .eof),
    (.a, .send (.took 20)), (.b, .time 0), (.b, .time 0), (.b, .running true), (.b, .poll (.ready encryptedReady))]

def closeWire : Octets := (frameBuild .pureC frameClose flagNone [] 1 aliceKeys.encKey).getD []

theorem close_completes_alice :
    ∃ (a₀ b₀ : Endpoint) (p : Pair), Mode.client.start .pureC aliceKeys 0 = some a₀ ∧
      Mode.server.start .pureC bobKeys 0 = some b₀ ∧ (∃ f ∈ p.b.log.accepted, f.frame.type = frameClose) ∧
      p.b.pc = .returned 0 ∧ p.b.log.wrote = p.a.log.readPt ∧ p.a.pc.closing := by
  obtain ⟨a₀, startA⟩ : ∃ a₀, Mode.client.start .pureC aliceKeys 0 = some a₀ := ⟨_, rfl⟩
  obtain ⟨b₀, startB⟩ : ∃ b₀, Mode.server.start .pureC bobKeys 0 = some b₀ := ⟨_, rfl⟩
  have facing := alice_faces_bob startA startB
  obtain ⟨p, first, at_, keys, ctr, more, empty, plain, sent⟩ : ∃ p : Pair,
      Machine.exec (Pair.step aliceBobSsl fun _ => .pureC) plainStep ⟨a₀, b₀⟩ closeRun = some p ∧
      p.b.pc = .fill encryptedReady ∧ p.b.tun.decKey = aliceKeys.encKey ∧ p.b.tun.decNonce = 1 ∧ p.b.fr.eof = false ∧
      p.b.fr.rest = [] ∧ p.a.pc.rekey? = none ∧
      p.a.log.built = [⟨aliceKeys.encKey, 1, ⟨frameClose, flagNone, []⟩, closeWire⟩] := by
    cases startA
    cases startB
    exact ⟨_, rfl, rfl, rfl, rfl, rfl, rfl, rfl, rfl⟩
  have built : frameBuild .pureC frameClose flagNone [] 1 aliceKeys.encKey = some closeWire := rfl
  have length := (length_frameBuild built).2
  obtain ⟨fr, rest, eof, fill⟩ := step_fill aliceBobSsl .pureC at_ more empty (frameBuild_ne_nil built)
    (length.trans_le (by decide))
  obtain ⟨fr', _, _, extract⟩ := step_extract aliceBobSsl .pureC
    (e := { p.b with fr := fr, log := p.b.log.recv closeWire, pc := .extract encryptedReady })
    (f := ⟨frameClose, flagNone, []⟩) rfl (by rw [ctr]; decide) (rest.trans (List.append_nil _).symm)
    (by rw [keys, ctr]; exact built)
  have run := (Machine.Steps.of_exec plainStep closeRun honest_of_plain first).append <|
    .head (e := (.b, .recv (.ofOctets closeWire))) (congrArg (Option.map fun e => p.set e .b) fill)
      ⟨plain, rfl, fun _ member => .inl member, fun _ member => .inl member⟩ <|
    .head (e := (.b, .tick)) (congrArg (Option.map fun e => p.set e .b) extract) ⟨plain, rfl, fun _ member => .inl member, by
      intro f member
      rcases List.mem_append.mp member with before | new
      · exact .inl before
      · obtain rfl := List.mem_singleton.mp new
        rw [keys, ctr]
        exact .inr (List.mem_map_of_mem (sent ▸ List.mem_singleton_self _))⟩ .refl
  have member : (⟨p.b.tun.decKey, p.b.tun.decNonce, ⟨frameClose, flagNone, []⟩, closeWire⟩ : FrameRec) ∈
      p.b.log.accepted ++ [⟨p.b.tun.decKey, p.b.tun.decNonce, ⟨frameClose, flagNone, []⟩, closeWire⟩] :=
    List.mem_append_right _ (List.mem_singleton_self _)
  exact ⟨a₀, b₀, _, startA, startB, ⟨_, member, rfl⟩, close_completes aliceBobSsl (fun _ => .pureC) a₀ b₀ (.start startA)
    (.start startB) facing.1 facing.2 _ run .a _ member rfl⟩

end AegisTunnel
