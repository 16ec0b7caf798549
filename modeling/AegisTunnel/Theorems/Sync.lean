import AegisTunnel.Lib.Machine
import AegisTunnel.Lib.Sequence
import AegisTunnel.Network
import AegisTunnel.Theorems.Handshake
import AegisTunnel.Theorems.Integrity

/-! Whether the two ends of a tunnel stay in step over lossless streams: they do as long as no byte of a REKEY
    frame is sent and every keepalive is sent whole. -/

namespace AegisTunnel
open Octets Sequence

/-- The bytes of frames that are still to be sent, but for those of re-keys. -/
def Pc.unsent : Pc → Octets
  | .sendData pending _ _ => pending
  | .sendClose wire => wire
  | .sendKa wire => wire
  | _ => []

/-- A re-key of the endpoint itself that has sent nothing. -/
def Rekey.Unsent (r : Rekey) : Prop :=
  r.init = true ∧ (r.pc = .keygen ∨ ∃ own pending, r.pc = .send own pending none ∧ pending ≠ [])

/-- No answer to a re-key is in progress, and no frame of an own one has been sent. -/
def Pc.Settled (tun : Tun) : Pc → Prop
  | .kaTime => tun.encNonce < nonceOverflowLimit
  | .respond .. => False
  | .initiate r => r.Unsent
  | _ => True

theorem Pc.Quiet.unsent {pc : Pc} (h : pc.Quiet) : pc.unsent = [] := by
  cases pc <;> first | rfl | exact h.elim

theorem Pc.Calm.unsent {tun : Tun} {pc : Pc} (h : pc.Calm tun) : pc.unsent = [] := by
  cases pc <;> first | rfl | exact h.elim

theorem Pc.Calm.settled {tun : Tun} {pc : Pc} (h : pc.Calm tun) : pc.Settled tun := by
  cases pc with
  | kaTime => exact h
  | initiate r => obtain rfl : r = Rekey.start true tun.encNonce := h; exact ⟨rfl, .inl rfl⟩
  | respond r rev => exact h.elim
  | _ => trivial

theorem unsent_framePc (n : UInt64) (f : Frame) (rev : Revents) : (framePc n f rev).unsent = [] := by
  unfold framePc
  split_ifs <;> rfl

theorem settled_framePc {n : UInt64} {f : Frame} {rev : Revents} {tun : Tun} (h : f.type ≠ frameRekey) :
    (framePc n f rev).Settled tun := by
  unfold framePc
  split_ifs <;> trivial

/-- No byte of a REKEY frame is sent, and a keepalive is sent whole. -/
structure QuietStep (e : Endpoint) (ev : Ev) : Prop where
  rekey : ∀ r own pending peer k, e.pc.rekey? = some r → r.pc = .send own pending peer → ev = .send k →
    k.bytes pending = []
  keepalive : ∀ wire k, e.pc = .sendKa wire → ev = .send k → k.bytes wire = wire

section
variable {lib : OpenSsl} {b : Backend} {psk : Octets} {keys : SessionKeys} {r : Rekey} {log log' : Log} {ev : Ev}
  {res : RekeyRes} {own : KeyPair}

theorem Rekey.Unsent.ne_recv {got : Octets} (h : r.Unsent) : r.pc ≠ .recv own got := by
  intro at_
  rcases h.2 with here | ⟨_, _, here, _⟩ <;> cases at_.symm.trans here

theorem Rekey.Unsent.ne_mix {ppub : Word 32} (h : r.Unsent) : r.pc ≠ .mix own ppub := by
  intro at_
  rcases h.2 with here | ⟨_, _, here, _⟩ <;> cases at_.symm.trans here

theorem Rekey.Unsent.send_inv {pending : Octets} {peer : Option (Word 32)} (h : r.Unsent)
    (at_ : r.pc = .send own pending peer) : peer = none ∧ pending ≠ [] := by
  rcases h.2 with here | ⟨_, _, here, some_⟩
  · cases at_.symm.trans here
  · cases at_.symm.trans here
    exact ⟨rfl, some_⟩

/-- A re-key that sends nothing receives nothing: it fails, or it is still to send. -/
theorem Rekey.Unsent.step (h : r.Unsent) (quiet : ∀ own pending peer k, r.pc = .send own pending peer → ev = .send k →
      k.bytes pending = []) (effect : RekeyEffect lib b psk keys r log ev res log') :
    log'.sent = log.sent ∧ log'.recvd = log.recvd ∧ log.built <+: log'.built ∧
      (res = .failed ∨ ∃ r', res = .running r' ∧ r'.Unsent) := by
  have same : log.built <+: log.built := List.prefix_rfl
  cases effect with
  | noKeyPair at_ => exact ⟨rfl, rfl, same, .inl rfl⟩
  | offer at_ side built =>
    exact ⟨rfl, rfl, List.prefix_append _ _, .inr ⟨_, rfl, side, .inr ⟨_, _, rfl, frameBuild_ne_nil built⟩⟩⟩
  | listen at_ side => cases side.symm.trans h.1
  | sendFailed at_ round =>
    refine ⟨?_, rfl, same, .inl rfl⟩
    rw [Log.send, quiet _ _ _ _ at_ rfl, List.append_nil]
  | sending at_ round more =>
    obtain ⟨rfl, some_⟩ := h.send_inv at_
    refine ⟨?_, rfl, same, .inr ⟨_, rfl, h.1, .inr ⟨_, _, rfl, more⟩⟩⟩
    rw [Log.send, quiet _ _ _ _ at_ rfl, List.append_nil]
  -- Sending nothing, the call cannot get past its frame.
  | sentOffer at_ round => exact absurd (round.symm.trans (quiet _ _ _ _ at_ rfl)) (h.send_inv at_).2
  | sentAnswer at_ round => cases (h.send_inv at_).1
  | recvFailed at_ => exact absurd at_ h.ne_recv
  | receiving at_ more => exact absurd at_ h.ne_recv
  | answered at_ => exact absurd at_ h.ne_recv
  | answer at_ => exact absurd at_ h.ne_recv
  | mixFailed at_ => exact absurd at_ h.ne_mix
  | mixed at_ => exact absurd at_ h.ne_mix

end

/-! ### What is on the way -/

/-- The frames on their way from `s` to `r`, over the bytes `way`: those that `r` has received and not yet taken,
    those under way and those that `s` is still to send are the bytes of frames that `s` has built, with the
    counters that `r` expects. -/
structure InFlight (s r : Endpoint) (way : Octets) (flight : List FrameRec) : Prop where
  keyed : s.tun.encKey = r.tun.decKey
  known : ∀ f ∈ flight, f ∈ s.log.built ∧ f.key = s.tun.encKey ∧ f.Genuine ∧ f.frame.type ≠ frameRekey
  numbered : Numbered (·.ctr.toNat) r.tun.decNonce.toNat flight
  next : s.tun.encNonce.toNat = r.tun.decNonce.toNat + flight.length
  bytes : r.fr.rest ++ way ++ s.pc.unsent = (flight.map FrameRec.wire).flatten ∨
    (∃ ret, s.pc = .returned ret) ∧ r.fr.rest ++ way <+: (flight.map FrameRec.wire).flatten

namespace InFlight
variable {s s' r r' : Endpoint} {way : Octets} {flight : List FrameRec} {lib : OpenSsl} {b : Backend} {ev : Ev}

theorem all (inv : InFlight s r way flight) (running : ∀ ret, s.pc ≠ .returned ret) :
    r.fr.rest ++ way ++ s.pc.unsent = (flight.map FrameRec.wire).flatten := by
  rcases inv.bytes with all | ⟨⟨ret, stopped⟩, _⟩
  · exact all
  · exact absurd stopped (running ret)

theorem keep {x : Octets} (inv : InFlight s r way flight) (running : ∀ ret, s.pc ≠ .returned ret)
    (built : s.log.built <+: s'.log.built) (key : s'.tun.encKey = s.tun.encKey) (nonce : s'.tun.encNonce = s.tun.encNonce)
    (round : x ++ s'.pc.unsent = s.pc.unsent) : InFlight s' r (way ++ x) flight := by
  refine ⟨key.trans inv.keyed, fun f member => ?_, inv.numbered, ?_, .inl ?_⟩
  · obtain ⟨before, fkey, rest⟩ := inv.known f member
    exact ⟨built.subset before, fkey.trans key.symm, rest⟩
  · rw [nonce]; exact inv.next
  · rw [← inv.all running, ← round]
    simp only [List.append_assoc]

theorem stop {x : Octets} {ret : Int} (inv : InFlight s r way flight) (running : ∀ ret, s.pc ≠ .returned ret)
    (log : s'.log.built = s.log.built) (tun : s'.tun = s.tun) (at_ : s'.pc = .returned ret) (part : x <+: s.pc.unsent) :
    InFlight s' r (way ++ x) flight := by
  refine ⟨tun ▸ inv.keyed, fun f member => ?_, inv.numbered, tun ▸ inv.next, .inr ⟨⟨ret, at_⟩, ?_⟩⟩
  · rw [log, tun]; exact inv.known f member
  · rw [← inv.all running, ← List.append_assoc]
    exact (List.prefix_append_right_inj _).mpr part

theorem build {f : FrameRec} (inv : InFlight s r way flight) (running : ∀ ret, s.pc ≠ .returned ret)
    (idle : s.pc.unsent = []) (room : s.tun.encNonce < nonceOverflowLimit) (built : s'.log.built = s.log.built ++ [f])
    (tun : s'.tun = s.tun.counted) (key : f.key = s.tun.encKey) (ctr : f.ctr = s.tun.encNonce) (genuine : f.Genuine)
    (type : f.frame.type ≠ frameRekey) (pending : s'.pc.unsent = f.wire) : InFlight s' r way (flight ++ [f]) := by
  refine ⟨tun ▸ inv.keyed, fun g member => ?_, ?_, ?_, .inl ?_⟩
  · rw [built, tun]
    rcases List.mem_append.mp member with before | new
    · obtain ⟨known, rest⟩ := inv.known g before
      exact ⟨List.mem_append_left _ known, rest⟩
    · obtain rfl := List.mem_singleton.mp new
      exact ⟨List.mem_append_right _ (List.mem_singleton_self _), key, genuine, type⟩
  · exact inv.numbered.concat (by rw [ctr]; exact inv.next)
  · rw [tun, List.length_append, List.length_singleton, ← Nat.add_assoc, ← inv.next]
    exact toNat_succ room
  · have all := inv.all running
    rw [idle, List.append_nil] at all
    rw [pending, all]
    simp

theorem send (inv : InFlight s r way flight) (settled : s.pc.Settled s.tun) (taken : step lib b s ev = some s')
    (quiet : QuietStep s ev) : ∃ x flight', s'.log.sent = s.log.sent ++ x ∧ InFlight s' r (way ++ x) flight' := by
  have running := running_of_step taken
  have same : s.log.built <+: s.log.built := List.prefix_rfl
  have nothing : s.log.sent = s.log.sent ++ [] := (List.append_nil _).symm
  have one : ∀ {flight'}, InFlight s' r way flight' → InFlight s' r (way ++ []) flight' := fun h => by rwa [List.append_nil]
  cases step_effect taken with
  | move at_ goes =>
    exact ⟨[], _, nothing, inv.keep running same rfl rfl (goes.unsent.trans at_.unsent.symm)⟩
  | lost d at_ full => exact ⟨[], _, nothing, inv.keep running same rfl rfl at_.unsent.symm⟩
  | data at_ room built =>
    exact ⟨[], _, nothing, one (inv.build running at_.unsent room rfl rfl rfl rfl ⟨_, built⟩
      (by decide : frameData ≠ frameRekey) rfl)⟩
  | close at_ room built =>
    exact ⟨[], _, nothing, one (inv.build running at_.unsent room rfl rfl rfl rfl ⟨_, built⟩
      (by decide : frameClose ≠ frameRekey) rfl)⟩
  | keepalive at_ built =>
    rw [at_] at settled
    exact ⟨[], _, nothing, one (inv.build running (by rw [at_]; rfl) settled rfl rfl rfl rfl ⟨_, built⟩
      (by decide : frameKeepalive ≠ frameRekey) rfl)⟩
  | @sent k pending rest drained rev pc at_ round goes =>
    refine ⟨_, _, rfl, inv.keep running same rfl rfl ?_⟩
    have left : pc.unsent = rest := by
      rcases goes with ⟨rfl, calm⟩ | rfl
      · exact calm.unsent
      · rfl
    rw [at_]
    exact (congrArg (k.bytes pending ++ ·) left).trans round
  -- After a failed or an unchecked `send` the stream may end inside a frame, but then the call has returned.
  | @sendFailed k pending drained rev at_ =>
    exact ⟨_, _, rfl, inv.stop running rfl rfl rfl (by rw [at_]; exact prefix_bytes k pending)⟩
  | @sentClose k wire at_ => exact ⟨_, _, rfl, inv.stop running rfl rfl rfl (by rw [at_]; exact prefix_bytes k wire)⟩
  | @sentKa k wire at_ =>
    refine ⟨_, _, rfl, inv.keep running same rfl rfl ?_⟩
    rw [at_, quiet.keepalive wire k at_ rfl]
    exact (congrArg (wire ++ ·) (calm_pressurePc s.tun).unsent).trans (List.append_nil _)
  | filled at_ rest goes =>
    refine ⟨[], _, nothing, inv.keep running same rfl rfl ?_⟩
    rw [at_]
    rcases goes with rfl | ⟨_, rfl⟩ <;> rfl
  | accepted at_ room cut parsed =>
    refine ⟨[], _, nothing, inv.keep running same rfl rfl ?_⟩
    rw [at_]
    exact unsent_framePc ..
  | wrote at_ round goes =>
    refine ⟨[], _, nothing, inv.keep running same rfl rfl ?_⟩
    rw [at_]
    rcases goes with ⟨_, rfl⟩ | rfl <;> rfl
  | writeFailed at_ => exact ⟨[], _, nothing, inv.keep running same rfl rfl (by rw [at_]; rfl)⟩
  | respond at_ h => rw [at_] at settled; exact settled.elim
  | @initiate _ rk res at_ h =>
    obtain ⟨res, log⟩ := res
    rw [at_] at settled
    obtain ⟨sent, _, built, goes⟩ := Rekey.Unsent.step settled
      (fun own pending peer k hpc => quiet.rekey rk own pending peer k (by rw [at_]; rfl) hpc) (rekeyStep_effect h)
    rcases goes with rfl | ⟨rk', rfl, _⟩
    · exact ⟨[], _, sent.trans nothing, inv.keep running built rfl rfl (by rw [at_]; rfl)⟩
    · exact ⟨[], _, sent.trans nothing, inv.keep running built rfl rfl (by rw [at_]; rfl)⟩

theorem stay (inv : InFlight s r way flight) (key : r'.tun.decKey = r.tun.decKey) (nonce : r'.tun.decNonce = r.tun.decNonce)
    (fr : r'.fr = r.fr) : InFlight s r' way flight := by
  refine ⟨inv.keyed.trans key.symm, inv.known, ?_, ?_, ?_⟩
  · rw [nonce]; exact inv.numbered
  · rw [nonce]; exact inv.next
  · rw [fr]; exact inv.bytes

theorem prefix_rest (inv : InFlight s r way flight) : r.fr.rest <+: (flight.map FrameRec.wire).flatten := by
  rcases inv.bytes with all | ⟨_, part⟩
  · exact ⟨_, (List.append_assoc ..).symm.trans all⟩
  · exact (List.prefix_append _ _).trans part

/-- A frame in the buffer is the first one on the way, and it is accepted. -/
theorem first {w rest : Octets} (inv : InFlight s r way flight) (cut : wireFraming.cut r.fr.rest = some (w, rest)) :
    ∃ f flight', flight = f :: flight' ∧ f.wire = w ∧ frameParse b w r.tun.decNonce r.tun.decKey = .ok f.frame := by
  have messages : ∀ w ∈ flight.map FrameRec.wire, wireFraming.Message w := by
    intro w member
    obtain ⟨f, found, rfl⟩ := List.mem_map.mp member
    obtain ⟨_, built⟩ := (inv.known f found).2.2.1
    exact message_frameBuild built
  -- The buffer holds a front part of these messages, so what is cut off it is the first of them.
  obtain ⟨ws, split, _⟩ := wireFraming.cut_of_prefix messages inv.prefix_rest cut
  obtain ⟨f, flight', rfl, rfl, rfl⟩ := List.map_eq_cons_iff.mp split
  refine ⟨f, flight', rfl, rfl, ?_⟩
  obtain ⟨_, key, genuine, _⟩ := inv.known f List.mem_cons_self
  rw [← UInt64.toNat_inj.mp inv.numbered.of_cons.1, ← inv.keyed, ← key]
  exact parse_genuine genuine

theorem advance {f : FrameRec} {rest : Octets} (inv : InFlight s r way (f :: flight))
    (cut : wireFraming.cut r.fr.rest = some (f.wire, rest)) (succ : r'.tun.decNonce.toNat = r.tun.decNonce.toNat + 1)
    (key : r'.tun.decKey = r.tun.decKey) (left : r'.fr.rest = rest) : InFlight s r' way flight := by
  refine ⟨inv.keyed.trans key.symm, fun g member => inv.known g (List.mem_cons_of_mem f member), ?_, ?_, ?_⟩
  · rw [succ]; exact inv.numbered.of_cons.2
  · rw [succ, inv.next, List.length_cons, Nat.add_assoc, Nat.add_comm 1]
  · have split := (wireFraming.cut_eq_some_iff.mp cut).2
    rw [left]
    rcases inv.bytes with all | ⟨stopped, t, part⟩
    · rw [split, List.map_cons, List.flatten_cons, List.append_assoc, List.append_assoc] at all
      exact .inl ((List.append_assoc ..).trans (List.append_cancel_left all))
    · rw [split, List.map_cons, List.flatten_cons, List.append_assoc, List.append_assoc] at part
      exact .inr ⟨stopped, t, (List.append_assoc ..).trans (List.append_cancel_left part)⟩

theorem recv (inv : InFlight s r way flight) (settled : r.pc.Settled r.tun) (taken : step lib b r ev = some r')
    (quiet : QuietStep r ev) : ∃ y, r'.log.recvd = r.log.recvd ++ y ∧ r'.pc.Settled r'.tun ∧
      ∀ way', way = y ++ way' → ∃ flight', InFlight s r' way' flight' := by
  have nothing : r.log.recvd = r.log.recvd ++ [] := (List.append_nil _).symm
  have stays : ∀ {r' : Endpoint}, r'.tun.decKey = r.tun.decKey → r'.tun.decNonce = r.tun.decNonce → r'.fr = r.fr →
      ∀ way', way = [] ++ way' → ∃ flight', InFlight s r' way' flight' :=
    fun key nonce fr way' same => ⟨flight, (show way = way' from same) ▸ inv.stay key nonce fr⟩
  cases step_effect taken with
  | move at_ goes => exact ⟨[], nothing, goes.settled, stays rfl rfl rfl⟩
  | lost d at_ full => exact ⟨[], nothing, ⟨rfl, .inl rfl⟩, stays rfl rfl rfl⟩
  | data at_ room built => exact ⟨[], nothing, trivial, stays rfl rfl rfl⟩
  | close at_ room built => exact ⟨[], nothing, trivial, stays rfl rfl rfl⟩
  | keepalive at_ built => exact ⟨[], nothing, trivial, stays rfl rfl rfl⟩
  | sent at_ round goes =>
    refine ⟨[], nothing, ?_, stays rfl rfl rfl⟩
    rcases goes with ⟨_, calm⟩ | rfl
    · exact calm.settled
    · trivial
  | sendFailed at_ => exact ⟨[], nothing, trivial, stays rfl rfl rfl⟩
  | sentClose at_ => exact ⟨[], nothing, trivial, stays rfl rfl rfl⟩
  | sentKa at_ => exact ⟨[], nothing, (calm_pressurePc r.tun).settled, stays rfl rfl rfl⟩
  | @filled _ x fr rev pc at_ rest goes =>
    refine ⟨x, rfl, ?_, fun way' split => ⟨flight, inv.keyed, inv.known, inv.numbered, inv.next, ?_⟩⟩
    · rcases goes with rfl | ⟨_, rfl⟩ <;> trivial
    · have moved : fr.rest ++ way' = r.fr.rest ++ way := by rw [rest, split, List.append_assoc]
      show fr.rest ++ way' ++ _ = _ ∨ _ ∧ fr.rest ++ way' <+: _
      rw [moved]
      exact inv.bytes
  | @accepted w f fr rev at_ room cut parsed =>
    obtain ⟨g, flight', rfl, rfl, ok⟩ := inv.first (b := b) cut
    cases ok.symm.trans parsed
    have succ : (r.tun.decNonce + 1).toNat = r.tun.decNonce.toNat + 1 := toNat_succ (UInt64.lt_trans room (by decide))
    exact ⟨[], nothing, settled_framePc (inv.known g List.mem_cons_self).2.2.2,
      fun way' same => ⟨flight', (show way = way' from same) ▸ inv.advance cut succ rfl rfl⟩⟩
  | wrote at_ round goes =>
    refine ⟨[], nothing, ?_, stays rfl rfl rfl⟩
    rcases goes with ⟨_, rfl⟩ | rfl <;> trivial
  | writeFailed at_ => exact ⟨[], nothing, trivial, stays rfl rfl rfl⟩
  | respond at_ h => rw [at_] at settled; exact settled.elim
  | @initiate _ rk res at_ h =>
    obtain ⟨res, log⟩ := res
    rw [at_] at settled
    obtain ⟨_, recvd, _, goes⟩ := Rekey.Unsent.step settled
      (fun own pending peer k hpc => quiet.rekey rk own pending peer k (by rw [at_]; rfl) hpc) (rekeyStep_effect h)
    rcases goes with rfl | ⟨rk', rfl, unsent⟩
    · exact ⟨[], recvd.trans nothing, trivial, stays rfl rfl rfl⟩
    · exact ⟨[], recvd.trans nothing, unsent, stays rfl rfl rfl⟩

end InFlight

/-! ### Runs of the two ends -/

@[simp] theorem Side.other_other (s : Side) : s.other.other = s := by cases s <;> rfl

theorem Side.other_ne (s : Side) : s.other ≠ s := by cases s <;> decide

theorem Side.eq_or_other (s t : Side) : t = s ∨ t = s.other := by
  cases s <;> cases t <;> first | exact .inl rfl | exact .inr rfl

@[simp] theorem Pair.get_set (p : Pair) (e : Endpoint) (s : Side) : (p.set e s).get s = e := by cases s <;> rfl

@[simp] theorem Pair.get_set_other (p : Pair) (e : Endpoint) (s : Side) : (p.set e s).get s.other = p.get s.other := by
  cases s <;> rfl

@[simp] theorem Net.moved_self (n : Net) (s : Side) (x y : Octets) : n.moved s x y s = n.way s ++ x := if_pos rfl

@[simp] theorem Net.moved_other (n : Net) (s : Side) (x y : Octets) :
    n.moved s x y s.other = (n.way s.other).drop y.length := if_neg s.other_ne

theorem sentSince_eq {e e' : Endpoint} {x : Octets} (h : e'.log.sent = e.log.sent ++ x) : e.sentSince e' = x := by
  rw [Endpoint.sentSince, h, List.drop_left]

theorem recvdSince_eq {e e' : Endpoint} {y : Octets} (h : e'.log.recvd = e.log.recvd ++ y) : e.recvdSince e' = y := by
  rw [Endpoint.recvdSince, h, List.drop_left]

theorem net_step_inv {lib : OpenSsl} {backend : Side → Backend} {n n' : Net} {side : Side} {ev : Ev}
    (h : n.step lib backend (side, ev) = some n') : ∃ e', step lib (backend side) (n.ends.get side) ev = some e' ∧
      (n.ends.get side).recvdSince e' <+: n.way side.other ∧
      n' = ⟨n.ends.set e' side, n.moved side ((n.ends.get side).sentSince e') ((n.ends.get side).recvdSince e')⟩ := by
  obtain ⟨e', stepped, h⟩ := Option.bind_eq_some_iff.mp h
  split at h
  next part => exact ⟨e', stepped, List.isPrefixOf_iff_prefix.mp part, (Option.some.inj h).symm⟩
  next => cases h

theorem net_step_of (lib : OpenSsl) (backend : Side → Backend) {n : Net} (side : Side) (ev : Ev) {e e' : Endpoint} {y : Octets}
    (here : n.ends.get side = e) (stepped : step lib (backend side) e ev = some e')
    (recvd : e'.log.recvd = e.log.recvd ++ y) (part : y <+: n.way side.other) :
    ∃ n', n.step lib backend (side, ev) = some n' ∧ n'.ends.get side = e' := by
  subst here
  have part' : ((n.ends.get side).recvdSince e').isPrefixOf (n.way side.other) = true := by
    rw [recvdSince_eq recvd]
    exact List.isPrefixOf_iff_prefix.mpr part
  exact ⟨_, Option.bind_eq_some_iff.mpr ⟨e', stepped, if_pos part'⟩, Pair.get_set ..⟩

/-- What each end has sent and the other has not yet taken are the frames that the other expects. -/
structure InSync (n : Net) : Prop where
  settled : ∀ side, (n.ends.get side).pc.Settled (n.ends.get side).tun
  flight : ∀ side, ∃ flight, InFlight (n.ends.get side) (n.ends.get side.other) (n.way side) flight

theorem InSync.step {lib : OpenSsl} {backend : Side → Backend} {n n' : Net} {ev : Side × Ev} (inv : InSync n)
    (taken : n.step lib backend ev = some n') (quiet : QuietStep (n.ends.get ev.1) ev.2) : InSync n' := by
  obtain ⟨side, ev⟩ := ev
  obtain ⟨e', stepped, ⟨left, part⟩, rfl⟩ := net_step_inv taken
  -- The end that takes the step sends on one stream and receives on the other.
  obtain ⟨out, outgoing⟩ := inv.flight side
  obtain ⟨into, incoming⟩ := inv.flight side.other
  rw [Side.other_other] at incoming
  obtain ⟨x, out', sent, outgoing'⟩ := outgoing.send (inv.settled side) stepped quiet
  obtain ⟨y, recvd, settled, takes⟩ := incoming.recv (inv.settled side) stepped quiet
  rw [recvdSince_eq recvd] at part
  obtain ⟨into', incoming'⟩ := takes left part.symm
  rw [sentSince_eq sent, recvdSince_eq recvd]
  constructor
  · intro t
    rcases side.eq_or_other t with rfl | rfl
    · rw [Pair.get_set]; exact settled
    · rw [Pair.get_set_other]; exact inv.settled _
  · intro t
    rcases side.eq_or_other t with rfl | rfl
    · dsimp only
      rw [Pair.get_set, Pair.get_set_other, Net.moved_self]
      exact ⟨out', outgoing'⟩
    · dsimp only
      rw [Pair.get_set_other, Side.other_other, Pair.get_set, Net.moved_other, ← part, List.drop_left]
      exact ⟨into', incoming'⟩

/-- `frame_reader_try_next` at `r` does not fail, and what it returns is the frame that `s` has built with the
    counter of `r`. -/
structure Accepts (b : Backend) (s r : Endpoint) : Prop where
  ok : frameReaderTryNext b r.fr r.tun.decNonce r.tun.decKey ≠ .error
  built : ∀ f fr, frameReaderTryNext b r.fr r.tun.decNonce r.tun.decKey = .frame f fr →
    ∃ g ∈ s.log.built, g.key = r.tun.decKey ∧ g.ctr = r.tun.decNonce ∧ g.frame = f

theorem tryNext_of_refused {b : Backend} {fr : FrameReader} {n : UInt64} {key : Block} {w rest : Octets}
    (cut : wireFraming.cut fr.rest = some (w, rest)) (refused : acceptFrame b key n w = none) :
    frameReaderTryNext b fr n key = .error := by
  rcases tryNext_of_cut cut with ⟨f, _, _, parsed, _⟩ | ⟨failed, _⟩
  · rw [acceptFrame, parsed] at refused
    cases refused
  · exact failed

theorem InFlight.accepts {s r : Endpoint} {way : Octets} {flight : List FrameRec} (b : Backend)
    (inv : InFlight s r way flight) : Accepts b s r := by
  cases cut : wireFraming.cut r.fr.rest with
  | none =>
    have more : frameReaderTryNext b r.fr r.tun.decNonce r.tun.decKey = .more := tryNext_of_cut_none cut
    constructor
    · intro failed; cases more.symm.trans failed
    · intro f fr found; cases more.symm.trans found
  | some p =>
    obtain ⟨w, rest⟩ := p
    obtain ⟨g, flight', rfl, rfl, parsed⟩ := inv.first (b := b) cut
    obtain ⟨known, key, _⟩ := inv.known g List.mem_cons_self
    rcases tryNext_of_cut (b := b) (n := r.tun.decNonce) cut with ⟨f, fr, next, ok, _⟩ | ⟨_, refused⟩
    · cases ok.symm.trans parsed
      constructor
      · intro failed; cases next.symm.trans failed
      · intro f fr found
        cases next.symm.trans found
        exact ⟨g, known, key.trans inv.keyed, UInt64.toNat_inj.mp inv.numbered.of_cons.1, rfl⟩
    · rw [acceptFrame, parsed] at refused
      cases refused

/-- In every run in which no byte of a REKEY frame is sent and each keepalive is sent whole, each end accepts
    what the other sends. -/
theorem frames_accepted (lib : OpenSsl) (backend : Side → Backend) (n₀ n : Net) (sync : InSync n₀)
    (run : Machine.Steps (Net.step lib backend) (fun n ev _ => QuietStep (n.ends.get ev.1) ev.2) n₀ n) (side : Side) :
    Accepts (backend side.other) (n.ends.get side) (n.ends.get side.other) := by
  have inv : InSync n := run.invariant sync fun inv taken quiet => inv.step taken quiet
  obtain ⟨flight, flying⟩ := inv.flight side
  exact flying.accepts _

/-! ### A re-key between `alice` and `bob` -/

theorem InSync.fresh {a b : Endpoint} (freshA : Fresh a) (freshB : Fresh b) (there : Facing a b) (back : Facing b a) :
    InSync ⟨⟨a, b⟩, fun _ => []⟩ := by
  have alone : ∀ {s r : Endpoint}, Fresh s → Fresh r → Facing s r → InFlight s r [] [] := by
    intro s r hs hr facing
    refine ⟨facing.1, fun f member => absurd member List.not_mem_nil, numbered_nil, congrArg UInt64.toNat facing.2, .inl ?_⟩
    rw [hs.call, hr.call]
    rfl
  constructor
  · rintro (_ | _)
    · show a.pc.Settled a.tun
      rw [freshA.call]
      trivial
    · show b.pc.Settled b.tun
      rw [freshB.call]
      trivial
  · rintro (_ | _)
    · exact ⟨[], alone freshA freshB there⟩
    · exact ⟨[], alone freshB freshA back⟩

/-- `alice` sends a REKEY frame and waits in vain for an answer. Then there is a byte to send. -/
def desyncRun : List (Side × Ev) :=
  [(.a, .time 0), (.a, .time 0), (.a, .running true), (.a, .poll (.ready ⟨false, false, false, false⟩)), (.a, .time 120),
    (.a, .keygen (some alice)), (.a, .send (.took 52)), (.a, .pollRecv .timeout), (.a, .running true),
    (.a, .poll (.ready plaintextReady)), (.a, .read (.data 7 [])), (.a, .send (.took 21)),
    (.b, .time 0), (.b, .time 0), (.b, .running true), (.b, .poll (.ready encryptedReady))]

theorem byteWire_built : frameBuild .pureC frameData flagNone [7] 1 aliceKeys.encKey = some byteWire := rfl

theorem byteWire_refused : (acceptFrame .pureC aliceKeys.encKey 2 byteWire).isNone = true := by decide +kernel

theorem length_byteWire : byteWire.length = 21 := (length_frameBuild byteWire_built).2

def rekeyWire : Octets := (frameBuild .pureC frameRekey flagNone alice.pub.toList 1 aliceKeys.encKey).getD []

theorem rekeyWire_built : frameBuild .pureC frameRekey flagNone alice.pub.toList 1 aliceKeys.encKey = some rekeyWire := rfl

theorem length_rekeyWire_alice : rekeyWire.length = 52 := (length_frameBuild rekeyWire_built).2

theorem bob_takes_rekey {n : Net} (way : n.way .a = rekeyWire ++ byteWire) (at_ : n.ends.b.pc = .fill encryptedReady)
    (keys : n.ends.b.tun.decKey = aliceKeys.encKey) (ctr : n.ends.b.tun.decNonce = 1) (more : n.ends.b.fr.eof = false)
    (empty : n.ends.b.fr.rest = []) :
    ∃ n', Machine.Steps (Net.step aliceBobSsl fun _ => .pureC) (fun _ _ _ => True) n n' ∧ n'.ends.b.fr.rest = byteWire ∧
      n'.ends.b.tun.decNonce = 2 ∧ n'.ends.b.tun.decKey = aliceKeys.encKey := by
  have length : (rekeyWire ++ byteWire).length = 73 := by
    rw [List.length_append, length_rekeyWire_alice, length_byteWire]
  have some_ : rekeyWire ++ byteWire ≠ [] := List.append_ne_nil_of_left_ne_nil (frameBuild_ne_nil rekeyWire_built) _
  let pureC : Side → Backend := fun _ => .pureC
  obtain ⟨fr, rest, _, fill⟩ := step_fill aliceBobSsl .pureC at_ more empty some_ (length.trans_le (by decide))
  obtain ⟨n₁, taken₁, here₁⟩ := net_step_of aliceBobSsl pureC .b _ rfl fill rfl (way ▸ List.prefix_rfl)
  obtain ⟨fr', rest', _, extract⟩ := step_extract aliceBobSsl .pureC
    (e := { n.ends.b with fr := fr, log := n.ends.b.log.recv (rekeyWire ++ byteWire), pc := .extract encryptedReady })
    (f := ⟨frameRekey, flagNone, alice.pub.toList⟩) rfl (by rw [ctr]; decide) rest (by rw [keys, ctr]; exact rekeyWire_built)
  obtain ⟨n₂, taken₂, here₂⟩ := net_step_of aliceBobSsl pureC .b _ here₁ extract (List.append_nil _).symm List.nil_prefix
  obtain ⟨n₃, taken₃, here₃⟩ := net_step_of aliceBobSsl pureC .b (.keygen (some bob)) here₂ rfl (List.append_nil _).symm
    List.nil_prefix
  obtain ⟨n₄, taken₄, here₄⟩ := net_step_of aliceBobSsl pureC .b (.pollRecv .timeout) here₃ rfl rfl List.nil_prefix
  refine ⟨n₄, .head taken₁ trivial (.head taken₂ trivial (.head taken₃ trivial (.head taken₄ trivial .refl))), ?_⟩
  rw [show n₄.ends.b = _ from here₄]
  exact ⟨rest', congrArg (· + 1) ctr, keys⟩

theorem rekey_desync :
    ∃ (a₀ b₀ : Endpoint) (n : Net), Mode.client.start .pureC aliceKeys 0 = some a₀ ∧
      Mode.server.start .pureC bobKeys 0 = some b₀ ∧ InSync ⟨⟨a₀, b₀⟩, fun _ => []⟩ ∧
      Machine.Steps (Net.step aliceBobSsl fun _ => .pureC) (fun _ _ _ => True) ⟨⟨a₀, b₀⟩, fun _ => []⟩ n ∧
      ¬ Accepts .pureC n.ends.a n.ends.b := by
  obtain ⟨a₀, startA⟩ : ∃ a₀, Mode.client.start .pureC aliceKeys 0 = some a₀ := ⟨_, rfl⟩
  obtain ⟨b₀, startB⟩ : ∃ b₀, Mode.server.start .pureC bobKeys 0 = some b₀ := ⟨_, rfl⟩
  obtain ⟨n, first, way, at_, keys, ctr, more, empty⟩ : ∃ n : Net,
      Machine.exec (Net.step aliceBobSsl fun _ => .pureC) (fun _ _ _ => true) ⟨⟨a₀, b₀⟩, fun _ => []⟩ desyncRun = some n ∧
      n.way .a = rekeyWire.take 52 ++ byteWire.take 21 ∧
      n.ends.b.pc = .fill encryptedReady ∧ n.ends.b.tun.decKey = aliceKeys.encKey ∧ n.ends.b.tun.decNonce = 1 ∧
      n.ends.b.fr.eof = false ∧ n.ends.b.fr.rest = [] := by
    cases startA
    cases startB
    exact ⟨_, rfl, rfl, rfl, rfl, rfl, rfl, rfl⟩
  rw [List.take_of_length_le length_rekeyWire_alice.le, List.take_of_length_le length_byteWire.le] at way
  -- What `bob` parses is not evaluated: it is a built frame, and built frames are accepted.
  obtain ⟨n', second, rest, ctr', keys'⟩ := bob_takes_rekey way at_ keys ctr more empty
  have facing := alice_faces_bob startA startB
  refine ⟨a₀, b₀, n', startA, startB, .fresh (.start startA) (.start startB) facing.1 facing.2,
    (Machine.Steps.of_exec _ desyncRun (fun _ _ => trivial) first).append second, fun accepts => ?_⟩
  have cut : wireFraming.cut n'.ends.b.fr.rest = some (byteWire, []) := by
    rw [rest]
    exact (congrArg _ (List.append_nil _).symm).trans (wireFraming.cut_message (message_frameBuild byteWire_built) [])
  refine accepts.ok ?_
  rw [ctr', keys']
  exact tryNext_of_refused cut (Option.isNone_iff_eq_none.mp byteWire_refused)

def Pc.plain : Pc → Bool
  | .sendKa _ => false
  | pc => pc.rekey?.isNone

theorem rekey_of_plain {pc : Pc} (plain : pc.plain = true) : pc.rekey? = none := by
  cases pc <;> first | rfl | cases plain

theorem quiet_of_plain {e : Endpoint} {ev : Ev} (plain : e.pc.plain = true) : QuietStep e ev where
  rekey r own pending peer k here _ _ := by cases (rekey_of_plain plain).symm.trans here
  keepalive wire k here _ := by
    rw [here] at plain
    cases plain

theorem frames_accepted_one_byte :
    ∃ (a₀ b₀ : Endpoint) (n : Net), Mode.client.start .pureC aliceKeys 0 = some a₀ ∧
      Mode.server.start .pureC bobKeys 0 = some b₀ ∧ n.ends.b.fr.rest = byteWire ∧ Accepts .pureC n.ends.a n.ends.b := by
  obtain ⟨a₀, startA⟩ : ∃ a₀, Mode.client.start .pureC aliceKeys 0 = some a₀ := ⟨_, rfl⟩
  obtain ⟨b₀, startB⟩ : ∃ b₀, Mode.server.start .pureC bobKeys 0 = some b₀ := ⟨_, rfl⟩
  have facing := alice_faces_bob startA startB
  let pureC : Side → Backend := fun _ => .pureC
  obtain ⟨n, first, way, at_, more, empty⟩ : ∃ n : Net,
      Machine.exec (Net.step aliceBobSsl pureC) (fun n ev _ => (n.ends.get ev.1).pc.plain) ⟨⟨a₀, b₀⟩, fun _ => []⟩ byteRun =
        some n ∧
      n.way .a = byteWire.take 21 ∧ n.ends.b.pc = .fill encryptedReady ∧ n.ends.b.fr.eof = false ∧ n.ends.b.fr.rest = [] := by
    cases startA
    cases startB
    exact ⟨_, rfl, rfl, rfl, rfl, rfl⟩
  rw [List.take_of_length_le length_byteWire.le] at way
  obtain ⟨fr, rest, _, fill⟩ := step_fill aliceBobSsl .pureC at_ more empty (frameBuild_ne_nil byteWire_built)
    (length_byteWire.trans_le (by decide))
  obtain ⟨n', taken, here⟩ := net_step_of aliceBobSsl pureC .b _ rfl fill rfl (way ▸ List.prefix_rfl)
  have run : Machine.Steps (Net.step aliceBobSsl pureC) (fun n ev _ => QuietStep (n.ends.get ev.1) ev.2)
      ⟨⟨a₀, b₀⟩, fun _ => []⟩ n' :=
    .tail (.of_exec _ byteRun (fun _ plain => quiet_of_plain plain) first) taken
      (quiet_of_plain (by rw [show (n.ends.get .b).pc = _ from at_]; rfl))
  refine ⟨a₀, b₀, n', startA, startB, ?_, frames_accepted aliceBobSsl pureC _ n'
    (.fresh (.start startA) (.start startB) facing.1 facing.2) run .a⟩
  rw [show n'.ends.b = _ from here]
  exact rest

end AegisTunnel
