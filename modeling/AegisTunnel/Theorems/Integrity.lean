import AegisTunnel.Lib.Machine
import AegisTunnel.Lib.Sequence
import AegisTunnel.Network
import AegisTunnel.Theorems.Handshake
import AegisTunnel.Theorems.Tunnel

/-! What arrives at the far end of a tunnel without re-keys, over a network that does as it likes: a prefix of
    what went in. -/

namespace AegisTunnel
open Octets Sequence

def FrameRec.core (r : FrameRec) : Block × UInt64 × Frame := (r.key, r.ctr, r.frame)

/-- What an endpoint has built after its first `k` frames. -/
def Endpoint.outgoing (k : Nat) (e : Endpoint) : List (Block × UInt64 × Frame) := (e.log.built.drop k).map FrameRec.core

def Pc.unwritten : Pc → Octets
  | .write pending _ => pending
  | _ => []

/-! ### The sending side -/

/-- An endpoint that sends under `key` and has numbered its frames, but for the first `k`, from `n` on. -/
structure Sender (key : Block) (n k : Nat) (e : Endpoint) : Prop where
  keyed : e.tun.encKey = key
  size : k ≤ e.log.built.length
  older : ∀ r ∈ e.log.built.take k, r.key = key → r.ctr.toNat < n
  numbered : Numbered (fun c => c.2.1.toNat) n (e.outgoing k)
  next : e.tun.encNonce.toNat = n + (e.outgoing k).length
  read : e.log.readPt = (e.outgoing k).flatMap (·.2.2.delivered)
  ready : e.pc.Ready e.tun

namespace Sender
variable {key : Block} {n k : Nat} {e e' : Endpoint}

theorem keep (inv : Sender key n k e) (built : e'.log.built = e.log.built) (tun : e'.tun.encKey = e.tun.encKey)
    (nonce : e'.tun.encNonce = e.tun.encNonce) (read : e'.log.readPt = e.log.readPt) (ready : e'.pc.Ready e'.tun) :
    Sender key n k e' := by
  have out : e'.outgoing k = e.outgoing k := by rw [Endpoint.outgoing, Endpoint.outgoing, built]
  refine ⟨tun.trans inv.keyed, built ▸ inv.size, built ▸ inv.older, out ▸ inv.numbered, ?_, ?_, ready⟩
  · rw [nonce, out]; exact inv.next
  · rw [read, out]; exact inv.read

theorem build {r : FrameRec} (inv : Sender key n k e) (builds : e.Builds r e') (ready : e'.pc.Ready e'.tun) :
    Sender key n k e' := by
  have out : e'.outgoing k = e.outgoing k ++ [r.core] := by
    rw [Endpoint.outgoing, builds.built, List.drop_append_of_le_length inv.size, List.map_append]
    rfl
  refine ⟨builds.tun ▸ inv.keyed, ?_, ?_, ?_, ?_, ?_, ready⟩
  · rw [builds.built, List.length_append]
    exact Nat.le_add_right_of_le inv.size
  · rw [builds.built, List.take_append_of_le_length inv.size]
    exact inv.older
  · rw [out]
    refine inv.numbered.concat ?_
    rw [← inv.next, ← builds.ctr]
    rfl
  · rw [builds.tun, out, List.length_append, List.length_singleton, ← Nat.add_assoc, ← inv.next]
    exact toNat_succ builds.room
  · rw [builds.read, out, List.flatMap_append, inv.read]
    simp [FrameRec.core]

theorem mem_outgoing {f : FrameRec} (inv : Sender key n k e) (built : f.core ∈ e.log.built.map FrameRec.core)
    (fkey : f.key = key) (le : n ≤ f.ctr.toNat) : f.core ∈ e.outgoing k := by
  obtain ⟨g, member, same⟩ := List.mem_map.mp built
  obtain ⟨gkey, gctr, _⟩ : g.key = f.key ∧ g.ctr = f.ctr ∧ g.frame = f.frame := by simpa [FrameRec.core] using same
  rw [← List.take_append_drop k e.log.built] at member
  rcases List.mem_append.mp member with old | new
  · have := inv.older g old (gkey.trans fkey)
    rw [gctr] at this
    omega
  · exact same ▸ List.mem_map_of_mem new

theorem step {lib : OpenSsl} {b : Backend} {ev : Ev} (inv : Sender key n k e) (taken : step lib b e ev = some e')
    (before : e.pc.rekey? = none) (after : e'.pc.rekey? = none) :
    Sender key n k e' ∧ e.log.built <+: e'.log.built := by
  obtain ⟨ready, idles | ⟨r, builds⟩⟩ := (step_effect taken).sending before inv.ready
  · exact ⟨inv.keep idles.built idles.key idles.nonce (idles.read after) ready, idles.built ▸ List.prefix_rfl⟩
  · exact ⟨inv.build builds ready, builds.built ▸ List.prefix_append _ _⟩

end Sender

/-! ### The receiving side -/

/-- An endpoint that receives under `key`, from the counter `n` on, and writes what it accepts. -/
structure Receiver (key : Block) (n : Nat) (e : Endpoint) : Prop where
  keyed : e.tun.decKey = key
  next : e.tun.decNonce.toNat = n + e.log.accepted.length
  written : e.log.wrote ++ e.pc.unwritten = e.log.accepted.flatMap (·.frame.delivered) ∨
    (∃ ret, e.pc = .returned ret) ∧ e.log.wrote <+: e.log.accepted.flatMap (·.frame.delivered)

theorem Pc.Quiet.unwritten {pc : Pc} (h : pc.Quiet) : pc.unwritten = [] := by
  cases pc <;> first | rfl | exact h.elim

theorem Pc.Calm.unwritten {tun : Tun} {pc : Pc} (h : pc.Calm tun) : pc.unwritten = [] := by
  cases pc <;> first | rfl | exact h.elim

theorem unwritten_framePc (n : UInt64) (f : Frame) (rev : Revents) : (framePc n f rev).unwritten = f.delivered := by
  unfold framePc Frame.delivered
  split_ifs <;> simp_all [Pc.unwritten]

namespace Receiver
variable {key : Block} {n : Nat} {e e' : Endpoint}

theorem all (inv : Receiver key n e) (running : ∀ ret, e.pc ≠ .returned ret) :
    e.log.wrote ++ e.pc.unwritten = e.log.accepted.flatMap (·.frame.delivered) := by
  rcases inv.written with all | ⟨⟨ret, stopped⟩, _⟩
  · exact all
  · exact absurd stopped (running ret)

theorem keep (inv : Receiver key n e) (accepted : e'.log.accepted = e.log.accepted) (tun : e'.tun.decKey = e.tun.decKey)
    (nonce : e'.tun.decNonce = e.tun.decNonce) (wrote : e'.log.wrote = e.log.wrote) (running : ∀ ret, e.pc ≠ .returned ret)
    (idle : e.pc.unwritten = []) (idle' : e'.pc.unwritten = []) : Receiver key n e' := by
  refine ⟨tun.trans inv.keyed, ?_, .inl ?_⟩
  · rw [nonce, accepted]; exact inv.next
  · rw [wrote, accepted, idle', ← idle]; exact inv.all running

theorem step {lib : OpenSsl} {b : Backend} {ev : Ev} (inv : Receiver key n e) (taken : step lib b e ev = some e')
    (before : e.pc.rekey? = none) :
    Receiver key n e' ∧ (e'.log.accepted = e.log.accepted ∨
      ∃ r, e'.log.accepted = e.log.accepted ++ [r] ∧ r.key = key ∧ r.ctr.toNat = n + e.log.accepted.length) := by
  have running := running_of_step taken
  cases step_effect taken with
  | move at_ goes => exact ⟨inv.keep rfl rfl rfl rfl running at_.unwritten goes.unwritten, .inl rfl⟩
  | lost d at_ full => exact ⟨inv.keep rfl rfl rfl rfl running at_.unwritten rfl, .inl rfl⟩
  | data at_ room built => exact ⟨inv.keep rfl rfl rfl rfl running at_.unwritten rfl, .inl rfl⟩
  | close at_ room built => exact ⟨inv.keep rfl rfl rfl rfl running at_.unwritten rfl, .inl rfl⟩
  | keepalive at_ built => exact ⟨inv.keep rfl rfl rfl rfl running (by rw [at_]; rfl) rfl, .inl rfl⟩
  | sent at_ round goes =>
    refine ⟨inv.keep rfl rfl rfl rfl running (by rw [at_]; rfl) ?_, .inl rfl⟩
    rcases goes with ⟨_, calm⟩ | rfl
    · exact calm.unwritten
    · rfl
  | sendFailed at_ => exact ⟨inv.keep rfl rfl rfl rfl running (by rw [at_]; rfl) rfl, .inl rfl⟩
  | sentClose at_ => exact ⟨inv.keep rfl rfl rfl rfl running (by rw [at_]; rfl) rfl, .inl rfl⟩
  | sentKa at_ =>
    exact ⟨inv.keep rfl rfl rfl rfl running (by rw [at_]; rfl) (calm_pressurePc e.tun).unwritten, .inl rfl⟩
  | filled at_ rest goes =>
    refine ⟨inv.keep rfl rfl rfl rfl running (by rw [at_]; rfl) ?_, .inl rfl⟩
    rcases goes with rfl | ⟨_, rfl⟩ <;> rfl
  | @accepted w f fr rev at_ room cut parsed =>
    refine ⟨⟨inv.keyed, ?_, .inl ?_⟩, .inr ⟨_, rfl, inv.keyed, inv.next⟩⟩
    · rw [Log.accept, List.length_append, List.length_singleton, ← Nat.add_assoc, ← inv.next]
      exact toNat_succ (UInt64.lt_trans room (by decide))
    · have all := inv.all running
      rw [at_] at all
      show e.log.wrote ++ (framePc _ f rev).unwritten = (e.log.accepted ++ [_]).flatMap _
      rw [unwritten_framePc, List.flatMap_append, ← all]
      simp [Pc.unwritten]
  | @wrote k pending rest rev pc at_ round goes =>
    have all := inv.all running
    rw [at_] at all
    refine ⟨⟨inv.keyed, inv.next, .inl ?_⟩, .inl rfl⟩
    have left : pc.unwritten = rest := by rcases goes with ⟨rfl, rfl⟩ | rfl <;> rfl
    show e.log.wrote ++ k.bytes pending ++ pc.unwritten = _
    rw [left, List.append_assoc, round]
    exact all
  | @writeFailed k pending rev at_ =>
    -- A part of the payload may be written already; `tunnel_run` returns.
    have all := inv.all running
    rw [at_] at all
    refine ⟨⟨inv.keyed, inv.next, .inr ⟨⟨_, rfl⟩, ?_⟩⟩, .inl rfl⟩
    show e.log.wrote ++ k.bytes pending <+: e.log.accepted.flatMap _
    rw [← all]
    exact (List.prefix_append_right_inj _).mpr (prefix_bytes k pending)
  | respond at_ h => rw [at_] at before; cases before
  | initiate at_ h => rw [at_] at before; cases before

end Receiver

/-! ### From end to end -/

/-- What flows from `s` to `r`: under `key`, numbered from `n` on, after the `k` frames that `s` built before. -/
structure Flow (key : Block) (n k : Nat) (s r : Endpoint) : Prop where
  sender : Sender key n k s
  receiver : Receiver key n r
  order : r.log.accepted.map FrameRec.core <+: s.outgoing k

/-- Every frame accepted on the way from `r` to `r'` is one that the peer has built. -/
def Authentic (s r r' : Endpoint) : Prop :=
  ∀ f ∈ r'.log.accepted, f ∈ r.log.accepted ∨ f.core ∈ s.log.built.map FrameRec.core

namespace Flow
variable {key : Block} {n k : Nat} {s s' r r' : Endpoint} {lib : OpenSsl} {b : Backend} {ev : Ev}

theorem send (inv : Flow key n k s r) (taken : step lib b s ev = some s') (before : s.pc.rekey? = none)
    (after : s'.pc.rekey? = none) : Flow key n k s' r := by
  obtain ⟨sender, more⟩ := inv.sender.step taken before after
  obtain ⟨t, built⟩ := more
  refine ⟨sender, inv.receiver, inv.order.trans ?_⟩
  rw [Endpoint.outgoing, Endpoint.outgoing, ← built, List.drop_append_of_le_length inv.sender.size, List.map_append]
  exact List.prefix_append _ _

theorem recv (inv : Flow key n k s r) (taken : step lib b r ev = some r') (before : r.pc.rekey? = none)
    (authentic : Authentic s r r') : Flow key n k s r' := by
  obtain ⟨receiver, same | ⟨f, more, fkey, fctr⟩⟩ := inv.receiver.step taken before
  · exact ⟨inv.sender, receiver, same ▸ inv.order⟩
  -- The frame was built by the peer and has the number that comes next, so it is the next one of `s.outgoing k`.
  · refine ⟨inv.sender, receiver, ?_⟩
    have member : f.core ∈ s.outgoing k := by
      rcases authentic f (more ▸ List.mem_append_right _ (List.mem_singleton_self f)) with again | built
      · exact inv.order.subset (List.mem_map_of_mem again)
      · exact inv.sender.mem_outgoing built fkey (fctr ▸ Nat.le_add_right _ _)
    rw [more, List.map_append]
    exact inv.sender.numbered.prefix_concat inv.order member (by rw [List.length_map]; exact fctr)

theorem prefix_readPt (inv : Flow key n k s r) : r.log.wrote <+: s.log.readPt := by
  have written : r.log.wrote <+: r.log.accepted.flatMap (·.frame.delivered) := by
    rcases inv.receiver.written with all | ⟨_, some_⟩
    · exact ⟨_, all⟩
    · exact some_
  obtain ⟨t, order⟩ := inv.order
  rw [inv.sender.read, ← order, List.flatMap_append, List.flatMap_map]
  exact written.trans (List.prefix_append _ _)

end Flow

/-! ### Runs -/

/-- An endpoint that has just called `tunnel_run`: the frames it has built before have lower counters. -/
structure Fresh (e : Endpoint) : Prop where
  call : e = tunnelStart e.tun e.log
  older : ∀ r ∈ e.log.built, r.key = e.tun.encKey → r.ctr < e.tun.encNonce
  accepted : e.log.accepted = []
  readPt : e.log.readPt = []
  wrote : e.log.wrote = []

theorem Fresh.start {b : Backend} {keys : SessionKeys} {keepalive : Int64} {m : Mode} {e : Endpoint}
    (h : m.start b keys keepalive = some e) : Fresh e := by
  obtain ⟨log, rfl, built, accepted, readPt, wrote⟩ := fresh_start h
  refine ⟨rfl, fun r member _ => ?_, accepted, readPt, wrote⟩
  rcases built with none_ | ⟨s, one, _, lt⟩
  · exact absurd (none_ ▸ member) List.not_mem_nil
  · obtain rfl := List.mem_singleton.mp (one ▸ member)
    exact lt

/-- `s` sends with the key and the counter with which `r` receives. -/
def Facing (s r : Endpoint) : Prop := s.tun.encKey = r.tun.decKey ∧ s.tun.encNonce = r.tun.decNonce

theorem flow_start {s r : Endpoint} (hs : Fresh s) (hr : Fresh r) (facing : Facing s r) :
    Flow s.tun.encKey s.tun.encNonce.toNat s.log.built.length s r := by
  have none_ : s.outgoing s.log.built.length = [] := by rw [Endpoint.outgoing, List.drop_length]; rfl
  have at_ : s.pc = .startKa := by rw [hs.call]; rfl
  have atR : r.pc = .startKa := by rw [hr.call]; rfl
  refine ⟨⟨rfl, Nat.le_refl _, fun f member key => ?_, ?_, ?_, ?_, ?_⟩, ⟨facing.1.symm, ?_, .inl ?_⟩, ?_⟩
  · rw [List.take_length] at member
    exact UInt64.lt_iff_toNat_lt.mp (hs.older f member key)
  · rw [none_]; exact numbered_nil
  · rw [none_]; rfl
  · rw [none_, hs.readPt]; rfl
  · rw [at_]; trivial
  · rw [hr.accepted, facing.2]; rfl
  · rw [hr.wrote, hr.accepted, atR]; rfl
  · rw [hr.accepted, none_]; exact List.prefix_rfl

/-- A step in which neither end is in a re-key and no frame is forged. -/
structure HonestStep (p q : Pair) : Prop where
  plainA : q.a.pc.rekey? = none
  plainB : q.b.pc.rekey? = none
  authenticA : Authentic p.b p.a q.a
  authenticB : Authentic p.a p.b q.b

/-- Neither end is in a re-key, and there is a flow each way since `a₀` and `b₀`. -/
structure TwoWay (a₀ b₀ : Endpoint) (p : Pair) : Prop where
  plainA : p.a.pc.rekey? = none
  plainB : p.b.pc.rekey? = none
  there : Flow a₀.tun.encKey a₀.tun.encNonce.toNat a₀.log.built.length p.a p.b
  back : Flow b₀.tun.encKey b₀.tun.encNonce.toNat b₀.log.built.length p.b p.a

theorem TwoWay.start {a₀ b₀ : Endpoint} (freshA : Fresh a₀) (freshB : Fresh b₀) (there : Facing a₀ b₀) (back : Facing b₀ a₀) :
    TwoWay a₀ b₀ ⟨a₀, b₀⟩ where
  plainA := by rw [freshA.call]; rfl
  plainB := by rw [freshB.call]; rfl
  there := flow_start freshA freshB there
  back := flow_start freshB freshA back

theorem TwoWay.step {lib : OpenSsl} {backend : Side → Backend} {a₀ b₀ : Endpoint} {p q : Pair} {ev : Side × Ev}
    (inv : TwoWay a₀ b₀ p) (taken : p.step lib backend ev = some q) (good : HonestStep p q) : TwoWay a₀ b₀ q := by
  obtain ⟨side, ev⟩ := ev
  cases side with
  | a =>
    obtain ⟨a, stepped, rfl⟩ := Option.map_eq_some_iff.mp taken
    exact ⟨good.plainA, inv.plainB, inv.there.send stepped inv.plainA good.plainA,
      inv.back.recv stepped inv.plainA good.authenticA⟩
  | b =>
    obtain ⟨b, stepped, rfl⟩ := Option.map_eq_some_iff.mp taken
    exact ⟨inv.plainA, good.plainB, inv.there.recv stepped inv.plainB good.authenticB,
      inv.back.send stepped inv.plainB good.plainB⟩

/-- Whatever the network delivers, the bytes written at one end are a prefix of the bytes read at the other. -/
theorem stream_integrity (lib : OpenSsl) (backend : Side → Backend) (a₀ b₀ : Endpoint) (freshA : Fresh a₀) (freshB : Fresh b₀)
    (there : Facing a₀ b₀) (back : Facing b₀ a₀) (p : Pair)
    (run : Machine.Steps (Pair.step lib backend) (fun p _ q => HonestStep p q) ⟨a₀, b₀⟩ p) :
    p.b.log.wrote <+: p.a.log.readPt ∧ p.a.log.wrote <+: p.b.log.readPt := by
  have inv : TwoWay a₀ b₀ p :=
    run.invariant (.start freshA freshB there back) fun inv taken good => inv.step taken good
  exact ⟨inv.there.prefix_readPt, inv.back.prefix_readPt⟩

/-! ### A byte from `alice` to `bob` -/

def Ev.isTick : Ev → Bool
  | .tick => true
  | _ => false

/-- Neither end is in a re-key, and no frame is looked at. -/
def plainStep (p : Pair) (ev : Side × Ev) (q : Pair) : Bool :=
  p.a.pc.rekey?.isNone && p.b.pc.rekey?.isNone && q.a.pc.rekey?.isNone && q.b.pc.rekey?.isNone && !ev.2.isTick

theorem accepted_of_ne_tick {lib : OpenSsl} {b : Backend} {e e' : Endpoint} {ev : Ev} (taken : step lib b e ev = some e')
    (before : e.pc.rekey? = none) (noTick : ev.isTick = false) : e'.log.accepted = e.log.accepted := by
  cases step_effect taken with
  | accepted => cases noTick
  | respond at_ h => rw [at_] at before; cases before
  | initiate at_ h => rw [at_] at before; cases before
  | _ => rfl

theorem honest_of_plain {lib : OpenSsl} {backend : Side → Backend} {p q : Pair} {ev : Side × Ev}
    (taken : p.step lib backend ev = some q) (plain : plainStep p ev q = true) : HonestStep p q := by
  simp only [plainStep, Bool.and_eq_true, Option.isNone_iff_eq_none, Bool.not_eq_true'] at plain
  obtain ⟨⟨⟨⟨pa, pb⟩, qa⟩, qb⟩, noTick⟩ := plain
  obtain ⟨side, ev⟩ := ev
  cases side with
  | a =>
    obtain ⟨a, stepped, rfl⟩ := Option.map_eq_some_iff.mp taken
    exact ⟨qa, qb, fun f member => .inl (accepted_of_ne_tick stepped pa noTick ▸ member), fun f member => .inl member⟩
  | b =>
    obtain ⟨b, stepped, rfl⟩ := Option.map_eq_some_iff.mp taken
    exact ⟨qa, qb, fun f member => .inl member, fun f member => .inl (accepted_of_ne_tick stepped pb noTick ▸ member)⟩

theorem alice_faces_bob {a b : Endpoint} (startA : Mode.client.start .pureC aliceKeys 0 = some a)
    (startB : Mode.server.start .pureC bobKeys 0 = some b) : Facing a b ∧ Facing b a := by
  cases startA
  cases startB
  exact ⟨⟨rfl, rfl⟩, ⟨rfl, rfl⟩⟩

def plaintextReady : Revents := ⟨true, false, false, false⟩
def encryptedReady : Revents := ⟨false, true, false, false⟩

/-- `alice` reads a byte and sends it; `bob` is about to receive. -/
def byteRun : List (Side × Ev) :=
  [(.a, .time 0), (.a, .time 0), (.a, .running true), (.a, .poll (.ready plaintextReady)), (.a, .read (.data 7 [])),
    (.a, .send (.took 21)), (.b, .time 0), (.b, .time 0), (.b, .running true), (.b, .poll (.ready encryptedReady))]

def byteWire : Octets := (frameBuild .pureC frameData flagNone [7] 1 aliceKeys.encKey).getD []

/-- `bob` takes the frame and writes the byte. -/
theorem bob_takes_byte {p : Pair} (at_ : p.b.pc = .fill encryptedReady) (keys : p.b.tun.decKey = aliceKeys.encKey)
    (ctr : p.b.tun.decNonce = 1) (more : p.b.fr.eof = false) (empty : p.b.fr.rest = []) (plain : p.a.pc.rekey? = none)
    (sent : ⟨aliceKeys.encKey, 1, ⟨frameData, flagNone, [7]⟩, byteWire⟩ ∈ p.a.log.built) :
    ∃ b, Machine.Steps (Pair.step aliceBobSsl fun _ => .pureC) (fun p _ q => HonestStep p q) p { p with b := b } ∧
      b.log.wrote = p.b.log.wrote ++ [7] := by
  have built : frameBuild .pureC frameData flagNone [7] 1 aliceKeys.encKey = some byteWire := rfl
  have length := (length_frameBuild built).2
  obtain ⟨fr, rest, eof, fill⟩ := step_fill aliceBobSsl .pureC at_ more empty (frameBuild_ne_nil built)
    (length.trans_le (by decide))
  obtain ⟨fr', _, _, extract⟩ := step_extract aliceBobSsl .pureC
    (e := { p.b with fr := fr, log := p.b.log.recv byteWire, pc := .extract encryptedReady })
    (f := ⟨frameData, flagNone, [7]⟩) rfl (by rw [ctr]; decide) (rest.trans (List.append_nil _).symm)
    (by rw [keys, ctr]; exact built)
  refine ⟨_, .head (e := (.b, .recv (.ofOctets byteWire))) (congrArg (Option.map _) fill) ?_ <|
    .head (e := (.b, .tick)) (congrArg (Option.map _) extract) ?_ <|
    .head (e := (.b, .write (.took 1))) rfl ?_ .refl, rfl⟩
  · exact ⟨plain, rfl, fun _ member => .inl member, fun _ member => .inl member⟩
  · refine ⟨plain, rfl, fun _ member => .inl member, fun f member => ?_⟩
    rcases List.mem_append.mp member with before | new
    · exact .inl before
    · obtain rfl := List.mem_singleton.mp new
      rw [keys, ctr]
      exact .inr (List.mem_map_of_mem sent)
  · exact ⟨plain, rfl, fun _ member => .inl member, fun _ member => .inl member⟩

theorem stream_integrity_one_byte :
    ∃ (a₀ b₀ : Endpoint) (p : Pair), Mode.client.start .pureC aliceKeys 0 = some a₀ ∧
      Mode.server.start .pureC bobKeys 0 = some b₀ ∧
      p.b.log.wrote = [7] ∧ p.b.log.wrote <+: p.a.log.readPt ∧ p.a.log.wrote <+: p.b.log.readPt := by
  obtain ⟨a₀, startA⟩ : ∃ a₀, Mode.client.start .pureC aliceKeys 0 = some a₀ := ⟨_, rfl⟩
  obtain ⟨b₀, startB⟩ : ∃ b₀, Mode.server.start .pureC bobKeys 0 = some b₀ := ⟨_, rfl⟩
  have facing := alice_faces_bob startA startB
  obtain ⟨p, first, at_, keys, ctr, more, empty, plain, sent, none_⟩ : ∃ p : Pair,
      Machine.exec (Pair.step aliceBobSsl fun _ => .pureC) plainStep ⟨a₀, b₀⟩ byteRun = some p ∧
      p.b.pc = .fill encryptedReady ∧ p.b.tun.decKey = aliceKeys.encKey ∧ p.b.tun.decNonce = 1 ∧ p.b.fr.eof = false ∧
      p.b.fr.rest = [] ∧ p.a.pc.rekey? = none ∧
      p.a.log.built = [⟨aliceKeys.encKey, 1, ⟨frameData, flagNone, [7]⟩, byteWire⟩] ∧ p.b.log.wrote = [] := by
    cases startA
    cases startB
    exact ⟨_, rfl, rfl, rfl, rfl, rfl, rfl, rfl, rfl, rfl⟩
  obtain ⟨b, second, wrote⟩ := bob_takes_byte at_ keys ctr more empty plain (sent ▸ List.mem_singleton_self _)
  have run := (Machine.Steps.of_exec plainStep byteRun honest_of_plain first).append second
  exact ⟨a₀, b₀, _, startA, startB, wrote.trans (by rw [none_]; rfl),
    stream_integrity aliceBobSsl (fun _ => .pureC) a₀ b₀ (.start startA) (.start startB) facing.1 facing.2 _ run⟩

end AegisTunnel
