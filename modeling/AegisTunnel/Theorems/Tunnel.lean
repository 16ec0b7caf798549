import AegisTunnel.Tunnel
import AegisTunnel.Theorems.FrameReader
import AegisTunnel.Theorems.Rekey

/-! What a step of `tunnel_run` can do: one case for each way through the loop, from which the invariants
    of runs are derived. -/

namespace AegisTunnel
open Octets

/-! ### Rounds of sending -/

theorem bytes_append_writeAllRound {pending rest : Octets} {k : Sent} (h : writeAllRound pending k = some rest) :
    k.bytes pending ++ rest = pending := by
  cases k with
  | took n =>
    cases h
    exact List.take_append_drop n pending
  | eintr => cases h; rfl
  | again => cases h; rfl
  | error => cases h

theorem prefix_bytes (k : Sent) (pending : Octets) : k.bytes pending <+: pending := by
  cases k with
  | took n => exact List.take_prefix n pending
  | eintr => exact List.nil_prefix
  | again => exact List.nil_prefix
  | error => exact List.nil_prefix

/-! ### Places -/

/-- Nothing is half sent or half written, and no re-key is in progress. -/
def Pc.Quiet : Pc → Prop
  | .sendData .. | .sendClose _ | .sendKa _ | .write .. | .respond .. | .initiate _ => False
  | _ => True

/-- Where a quiet endpoint can go: to a quiet place, with room for the frame if that is the keepalive, or
    into a re-key of its own. -/
def Pc.Calm (tun : Tun) : Pc → Prop
  | .kaTime => tun.encNonce < nonceOverflowLimit
  | .initiate r => r = Rekey.start true tun.encNonce
  | pc => pc.Quiet

theorem calm_pressurePc (tun : Tun) : (pressurePc tun).Calm tun := by
  unfold pressurePc
  split
  · rfl
  · split <;> trivial

theorem calm_keepalivePc (tun : Tun) : (keepalivePc tun).Calm tun := by
  unfold keepalivePc
  split
  next h => exact h.2
  next => exact calm_pressurePc tun

theorem calm_errorsPc (tun : Tun) (rev : Revents) : (errorsPc tun rev).Calm tun := by
  unfold errorsPc
  split
  · trivial
  · split
    · trivial
    · exact calm_keepalivePc tun

theorem calm_encryptedPc (tun : Tun) (rev : Revents) : (encryptedPc tun rev).Calm tun := by
  unfold encryptedPc
  split
  · trivial
  · exact calm_errorsPc tun rev

/-! ### Re-keys in progress -/

def Rekey.frameOut (r : Rekey) : Bool :=
  match r.pc with
  | .keygen => false
  | .send .. => true
  | .recv .. => r.init
  | .mix .. => true

/-- As long as the frame has not been built, nothing was, and the counter of the call stays. -/
theorem RekeyEffect.before_frame {lib : OpenSsl} {b : Backend} {psk : Octets} {keys : SessionKeys} {r r' : Rekey}
    {log log' : Log} {ev : Ev} (wf : r.Wf) (h : RekeyEffect lib b psk keys r log ev (.running r') log')
    (quiet : r'.frameOut = false) : r.frameOut = false ∧ r'.nc = r.nc ∧ log'.built = log.built := by
  cases h with
  | listen hpc side => exact ⟨by rw [Rekey.frameOut, hpc], rfl, rfl⟩
  | receiving hpc more => exact ⟨by rw [Rekey.frameOut, hpc]; exact quiet, rfl, rfl⟩
  | sentOffer hpc round =>
    have side : true = r.init := wf _ _ _ hpc
    cases side.trans quiet
  | offer | sending | sentAnswer | answered | answer => cases quiet

def Pc.rekey? : Pc → Option Rekey
  | .initiate r => some r
  | .respond r _ => some r
  | _ => none

def Pc.frameOut (pc : Pc) : Bool := pc.rekey?.any Rekey.frameOut

theorem Pc.frameOut_of_rekey {pc : Pc} {r : Rekey} (at_ : pc.rekey? = some r) : pc.frameOut = r.frameOut := by
  rw [Pc.frameOut, at_]
  rfl

theorem Pc.frameOut_of_plain {pc : Pc} (plain : pc.rekey? = none) : pc.frameOut = false := by
  rw [Pc.frameOut, plain]
  rfl

/-- What the place of an endpoint says about its counter. -/
def Pc.Ready (tun : Tun) : Pc → Prop
  | .kaTime => tun.encNonce < nonceOverflowLimit
  | .initiate r => r.Wf ∧ r.init = true ∧ (r.frameOut = false → r.nc = tun.encNonce)
  | .respond r _ => r.Wf ∧ r.init = false
  | _ => True

theorem Pc.Calm.ready {tun : Tun} {pc : Pc} (h : pc.Calm tun) : pc.Ready tun := by
  cases pc with
  | kaTime => exact h
  | initiate r => obtain rfl : r = Rekey.start true tun.encNonce := h; exact ⟨Rekey.wf_start _ _, rfl, fun _ => rfl⟩
  | respond r rev => exact h.elim
  | _ => trivial

theorem ready_framePc (tun : Tun) (n : UInt64) (f : Frame) (rev : Revents) : (framePc n f rev).Ready tun := by
  unfold framePc
  split_ifs <;> first | trivial | exact ⟨Rekey.wf_start _ _, rfl⟩

/-! ### Effects -/

theorem toNat_succ {n : UInt64} (room : n < nonceOverflowLimit) : (n + 1).toNat = n.toNat + 1 := by
  rw [UInt64.lt_iff_toNat_lt] at room
  have limit : nonceOverflowLimit.toNat = 0xFFFFFFFFFFFFFFF0 := rfl
  have one : (1 : UInt64).toNat = 1 := rfl
  rw [UInt64.toNat_add]
  omega

def Tun.counted (tun : Tun) : Tun := { tun with encNonce := tun.encNonce + 1 }

def Tun.record (tun : Tun) (type : UInt8) (d wire : Octets) : FrameRec :=
  ⟨tun.encKey, tun.encNonce, ⟨type, flagNone, d⟩, wire⟩

/-- What a step can do to an endpoint. -/
inductive Effect (lib : OpenSsl) (b : Backend) (e : Endpoint) : Ev → Endpoint → Prop where
  /-- A step within the loop. -/
  | move {ev pc ka rk} (at_ : e.pc.Quiet) (goes : pc.Calm e.tun) :
      Effect lib b e ev { e with pc := pc, lastKa := ka, lastRekey := rk }
  /-- Bytes are read that the counter has no room for. -/
  | lost {ev} (d : Octets) (at_ : e.pc.Quiet) (full : nonceOverflowLimit ≤ e.tun.encNonce) :
      Effect lib b e ev { e with pc := doRekey e.tun, log := e.log.read d }
  | data {ev d wire drained rev} (at_ : e.pc.Quiet) (room : e.tun.encNonce < nonceOverflowLimit)
      (built : frameBuild b frameData flagNone d e.tun.encNonce e.tun.encKey = some wire) :
      Effect lib b e ev
        { e with
          tun := e.tun.counted
          pc := .sendData wire drained rev
          log := (e.log.read d).build (e.tun.record frameData d wire) }
  | close {ev wire} (at_ : e.pc.Quiet) (room : e.tun.encNonce < nonceOverflowLimit)
      (built : frameBuild b frameClose flagNone [] e.tun.encNonce e.tun.encKey = some wire) :
      Effect lib b e ev
        { e with tun := e.tun.counted, pc := .sendClose wire, log := e.log.build (e.tun.record frameClose [] wire) }
  | keepalive {ev wire now} (at_ : e.pc = .kaTime)
      (built : frameBuild b frameKeepalive flagNone [] e.tun.encNonce e.tun.encKey = some wire) :
      Effect lib b e ev
        { e with
          tun := e.tun.counted
          lastKa := now
          pc := .sendKa wire
          log := e.log.build (e.tun.record frameKeepalive [] wire) }
  /-- A round of the send loop; when the frame is sent, the loop goes on. -/
  | sent {k pending rest drained rev pc} (at_ : e.pc = .sendData pending drained rev)
      (round : k.bytes pending ++ rest = pending) (goes : rest = [] ∧ pc.Calm e.tun ∨ pc = .sendData rest drained rev) :
      Effect lib b e (.send k) { e with pc := pc, log := e.log.send (k.bytes pending) }
  | sendFailed {k pending drained rev} (at_ : e.pc = .sendData pending drained rev) :
      Effect lib b e (.send k) { e with pc := .returned (-1), log := e.log.send (k.bytes pending) }
  | sentClose {k wire} (at_ : e.pc = .sendClose wire) :
      Effect lib b e (.send k) { e with pc := .returned 0, log := e.log.send (k.bytes wire) }
  | sentKa {k wire} (at_ : e.pc = .sendKa wire) :
      Effect lib b e (.send k) { e with pc := pressurePc e.tun, log := e.log.send (k.bytes wire) }
  | filled {ev x fr rev pc} (at_ : e.pc = .fill rev) (rest : fr.rest = e.fr.rest ++ x)
      (goes : pc = .extract rev ∨ ∃ ret, pc = .returned ret) :
      Effect lib b e ev { e with pc := pc, fr := fr, log := e.log.recv x }
  | accepted {w f fr rev} (at_ : e.pc = .extract rev) (room : e.tun.decNonce < nonceOverflowLimit - nonceRekeyMargin)
      (cut : wireFraming.cut e.fr.rest = some (w, fr.rest))
      (parsed : frameParse b w e.tun.decNonce e.tun.decKey = .ok f) :
      Effect lib b e .tick
        { e with
          fr := fr
          tun := { e.tun with decNonce := e.tun.decNonce + 1 }
          log := e.log.accept ⟨e.tun.decKey, e.tun.decNonce, f, w⟩
          pc := framePc (e.tun.decNonce + 1) f rev }
  | wrote {k pending rest rev pc} (at_ : e.pc = .write pending rev) (round : k.bytes pending ++ rest = pending)
      (goes : rest = [] ∧ pc = .extract rev ∨ pc = .write rest rev) :
      Effect lib b e (.write k) { e with pc := pc, log := e.log.write (k.bytes pending) }
  | writeFailed {k pending rev} (at_ : e.pc = .write pending rev) :
      Effect lib b e (.write k) { e with pc := .returned (-1), log := e.log.write (k.bytes pending) }
  | respond {ev r rev res} (at_ : e.pc = .respond r rev)
      (taken : rekeyStep lib b e.tun.psk e.tun.keys r e.log ev = some res) : Effect lib b e ev (respondStep e rev res)
  | initiate {ev r res} (at_ : e.pc = .initiate r)
      (taken : rekeyStep lib b e.tun.psk e.tun.keys r e.log ev = some res) : Effect lib b e ev (initiateStep e res)

section
variable {lib : OpenSsl} {b : Backend} {e : Endpoint}

theorem effect_read {drained : Nat} {rev : Revents} (k : Offer) (h : e.pc = .read drained rev) :
    Effect lib b e (.read k) (readStep b e drained rev k) := by
  have quiet : e.pc.Quiet := by rw [h]; trivial
  cases k with
  | data x xs =>
    simp only [readStep, sendDataStep]
    split
    next full => exact .lost _ quiet full
    next room =>
      unfold Endpoint.build
      split
      -- `read` was given room for one payload, so the frame can be built.
      next hb =>
        have := frameBuild_eq_none_iff.mp hb
        have := List.length_take_le frameMaxPayload (x :: xs)
        omega
      next wire hb => exact .data quiet (UInt64.not_le.mp room) hb
  | eof =>
    simp only [readStep]
    split
    next room =>
      unfold Endpoint.build
      split
      next => exact .move quiet trivial
      next wire hb => exact .close quiet room hb
    next => exact .move quiet trivial
  | eintr => exact .move quiet (h ▸ trivial)
  | again => exact .move quiet (calm_encryptedPc e.tun rev)
  | error => exact .move quiet trivial

theorem effect_sendData {pending : Octets} {drained : Nat} {rev : Revents} (k : Sent)
    (h : e.pc = .sendData pending drained rev) :
    Effect lib b e (.send k) (sendDataRound e pending drained rev k) := by
  unfold sendDataRound
  split
  next => exact .sendFailed h
  next hr =>
    refine .sent h (bytes_append_writeAllRound hr) (.inl ⟨rfl, ?_⟩)
    split
    · exact calm_encryptedPc e.tun rev
    · trivial
  next rest _ hr => exact .sent h (bytes_append_writeAllRound hr) (.inr rfl)

theorem effect_write {pending : Octets} {rev : Revents} (k : Sent) (h : e.pc = .write pending rev) :
    Effect lib b e (.write k) (writeStep e pending rev k) := by
  unfold writeStep
  split
  next => exact .writeFailed h
  next hr => exact .wrote h (bytes_append_writeAllRound hr) (.inl ⟨rfl, rfl⟩)
  next rest _ hr => exact .wrote h (bytes_append_writeAllRound hr) (.inr rfl)

theorem rest_fillBuffer (fr : FrameReader) (k : Offer) :
    (fr.fillBuffer k).2.rest = fr.rest ++ if fr.recvs then k.taken fr.compact.space else [] := by
  unfold FrameReader.fillBuffer FrameReader.recvs
  by_cases heof : fr.eof = true
  · simp [heof]
  · by_cases hs : fr.compact.space = 0
    · simp [heof, hs]
    · simp only [heof, hs]
      cases k with
      | data x xs => simp [hs, FrameReader.rest_append]
      | eof =>
        have same : ({ fr.compact with eof := true } : FrameReader).rest = fr.compact.rest := rfl
        simp [Offer.taken, same]
      | eintr => simp [Offer.taken]
      | again => simp [Offer.taken]
      | error => simp [Offer.taken]

theorem effect_fill {rev : Revents} (k : Offer) (h : e.pc = .fill rev) :
    Effect lib b e (.recv k) (fillStep e rev k) := by
  have hrest := rest_fillBuffer e.fr k
  have hlog : (if e.fr.recvs then e.log.recv (k.taken e.fr.compact.space) else e.log) =
      e.log.recv (if e.fr.recvs then k.taken e.fr.compact.space else []) := by
    split
    · rfl
    · simp [Log.recv]
  simp only [fillStep, hlog]
  split
  next hf => exact .filled h (by rw [hf] at hrest; exact hrest) (.inr ⟨_, rfl⟩)
  next hf => exact .filled h (by rw [hf] at hrest; exact hrest) (.inr ⟨_, rfl⟩)
  next hf => exact .filled h (by rw [hf] at hrest; exact hrest) (.inl rfl)

theorem tryNext_frame {fr fr' : FrameReader} {n : UInt64} {key : Block} {f : Frame}
    (h : frameReaderTryNext b fr n key = .frame f fr') :
    ∃ w, wireFraming.cut fr.rest = some (w, fr'.rest) ∧ frameParse b w n key = .ok f := by
  cases hcut : wireFraming.cut fr.rest with
  | none => rw [tryNext_of_cut_none hcut] at h; cases h
  | some p =>
    obtain ⟨w, r⟩ := p
    rcases tryNext_of_cut (b := b) (n := n) hcut with ⟨g, fr₁, ht, hp, hr, _⟩ | ⟨ht, _⟩
    · cases ht.symm.trans h
      exact ⟨w, congrArg (fun r => some (w, r)) hr.symm, hp⟩
    · cases ht.symm.trans h

theorem effect_extract {rev : Revents} (h : e.pc = .extract rev) :
    Effect lib b e .tick (extractStep b e rev) := by
  have quiet : e.pc.Quiet := by rw [h]; trivial
  unfold extractStep
  split
  next => exact .move quiet rfl
  next room =>
    split
    next => exact .move quiet trivial
    next =>
      split
      next => exact .move quiet (calm_errorsPc e.tun rev)
      next => exact .move quiet trivial
      next f fr hf =>
        obtain ⟨w, hcut, hp⟩ := tryNext_frame hf
        have hw : e.fr.rest.take (e.fr.rest.length - fr.rest.length) = w := by
          rw [(wireFraming.cut_eq_some_iff.mp hcut).2, List.length_append, Nat.add_sub_cancel, List.take_left]
        rw [hw]
        exact .accepted h (UInt64.not_le.mp room) hcut hp

theorem effect_keepalive (now : Int64) (h : e.pc = .kaTime) : Effect lib b e (.time now) (keepaliveStep b e now) := by
  have quiet : e.pc.Quiet := by rw [h]; trivial
  unfold keepaliveStep Endpoint.build
  split
  · split
    next => exact .move quiet (calm_pressurePc e.tun)
    next wire hb => exact .keepalive h hb
  · exact .move quiet (calm_pressurePc e.tun)

/-- Every step has one of the effects. -/
theorem step_effect {e' : Endpoint} {ev : Ev} (h : step lib b e ev = some e') : Effect lib b e ev e' := by
  unfold step at h
  split at h
  -- Places with a step function of their own; the rest is a move to a fixed place.
  case h_8 k hpc => exact Option.some.inj h ▸ effect_read k hpc
  case h_9 k hpc => exact Option.some.inj h ▸ effect_sendData k hpc
  case h_10 k hpc => exact Option.some.inj h ▸ .sentClose hpc
  case h_11 k hpc => exact Option.some.inj h ▸ effect_fill k hpc
  case h_12 hpc => exact Option.some.inj h ▸ effect_extract hpc
  case h_13 k hpc => exact Option.some.inj h ▸ effect_write k hpc
  case h_14 hpc =>
    obtain ⟨res, taken, rfl⟩ := Option.map_eq_some_iff.mp h
    exact .respond hpc taken
  case h_15 now hpc => exact Option.some.inj h ▸ effect_keepalive now hpc
  case h_16 hpc => exact Option.some.inj h ▸ .sentKa hpc
  case h_18 hpc =>
    obtain ⟨res, taken, rfl⟩ := Option.map_eq_some_iff.mp h
    exact .initiate hpc taken
  case h_20 => cases h
  case h_7 rev hpc =>
    obtain rfl := Option.some.inj h
    refine .move (hpc ▸ trivial) ?_
    split
    · trivial
    · exact calm_encryptedPc e.tun rev
  case h_17 hpc =>
    obtain rfl := Option.some.inj h
    refine .move (hpc ▸ trivial) ?_
    split
    · rfl
    · trivial
  all_goals
    next hpc =>
      obtain rfl := Option.some.inj h
      exact .move (hpc ▸ trivial) trivial

theorem running_of_step {e' : Endpoint} {ev : Ev} (h : step lib b e ev = some e') : ∀ ret, e.pc ≠ .returned ret := by
  intro ret at_
  simp only [step, at_] at h
  cases h

theorem rekey_of_step {e' : Endpoint} {ev : Ev} (h : step lib b e ev = some e') :
    e.pc.rekey? = none ∨
      (∃ r rev res, e.pc = .respond r rev ∧ rekeyStep lib b e.tun.psk e.tun.keys r e.log ev = some res ∧
        e' = respondStep e rev res) ∨
      ∃ r res, e.pc = .initiate r ∧ rekeyStep lib b e.tun.psk e.tun.keys r e.log ev = some res ∧
        e' = initiateStep e res := by
  cases at_ : e.pc with
  | respond r rev =>
    simp only [step, at_] at h
    obtain ⟨res, taken, rfl⟩ := Option.map_eq_some_iff.mp h
    exact .inr (.inl ⟨r, rev, res, rfl, taken, rfl⟩)
  | initiate r =>
    simp only [step, at_] at h
    obtain ⟨res, taken, rfl⟩ := Option.map_eq_some_iff.mp h
    exact .inr (.inr ⟨r, res, rfl, taken, rfl⟩)
  | _ => exact .inl rfl

end

/-! ### The first part of the loop -/

/-- In the loop that drains the plaintext descriptor. -/
def Pc.drains : Pc → Bool
  | .read .. | .sendData .. => true
  | _ => false

theorem drains_pressurePc (tun : Tun) : (pressurePc tun).drains = false := by
  unfold pressurePc
  split_ifs <;> rfl

theorem drains_errorsPc (tun : Tun) (rev : Revents) : (errorsPc tun rev).drains = false := by
  unfold errorsPc keepalivePc
  split_ifs <;> first | rfl | exact drains_pressurePc tun

theorem drains_encryptedPc (tun : Tun) (rev : Revents) : (encryptedPc tun rev).drains = false := by
  unfold encryptedPc
  split_ifs
  · rfl
  · exact drains_errorsPc tun rev

theorem drains_framePc (n : UInt64) (f : Frame) (rev : Revents) : (framePc n f rev).drains = false := by
  unfold framePc
  split_ifs <;> rfl

theorem drains_build {b : Backend} {e : Endpoint} {type : UInt8} {d : Octets} {pc : Octets → Pc} {failed : Pc}
    (goes : ∀ wire, (pc wire).drains = false) (fails : failed.drains = false) :
    (e.build b type d pc failed).pc.drains = false := by
  unfold Endpoint.build
  split
  · exact fails
  · exact goes _

theorem drains_fillStep (e : Endpoint) (rev : Revents) (k : Offer) : (fillStep e rev k).pc.drains = false := by
  simp only [fillStep]
  split <;> rfl

theorem drains_extractStep (b : Backend) (e : Endpoint) (rev : Revents) : (extractStep b e rev).pc.drains = false := by
  unfold extractStep
  split
  · rfl
  · split
    · rfl
    · split
      · exact drains_errorsPc e.tun rev
      · rfl
      · exact drains_framePc ..

theorem drains_writeStep (e : Endpoint) (pending : Octets) (rev : Revents) (k : Sent) :
    (writeStep e pending rev k).pc.drains = false := by
  unfold writeStep
  split <;> rfl

theorem drains_keepaliveStep (b : Backend) (e : Endpoint) (now : Int64) : (keepaliveStep b e now).pc.drains = false := by
  unfold keepaliveStep
  split
  · exact drains_build (fun _ => rfl) (drains_pressurePc e.tun)
  · exact drains_pressurePc e.tun

/-- The loop is entered from `poll`; within it a `read` or a round of the send loop returns. -/
theorem drain_of_step {lib : OpenSsl} {b : Backend} {e e' : Endpoint} {ev : Ev} (taken : step lib b e ev = some e')
    (drains : e'.pc.drains = true) :
    (∃ rev, ev = .poll (.ready rev) ∧ rev.ptIn = true ∧ e' = { e with pc := .read 0 rev }) ∨
    (∃ drained rev k, e.pc = .read drained rev ∧ ev = .read k ∧ e' = readStep b e drained rev k) ∨
    ∃ pending drained rev k, e.pc = .sendData pending drained rev ∧ ev = .send k ∧
      e' = sendDataRound e pending drained rev k := by
  have other : ∀ {pc : Pc} {P : Prop}, pc.drains = false → pc.drains = true → P := fun no yes => by
    rw [no] at yes
    cases yes
  unfold step at taken
  split at taken
  case h_7 rev at_ =>
    obtain rfl := Option.some.inj taken
    cases in_ : rev.ptIn with
    | true => exact .inl ⟨rev, rfl, in_, by simp only [if_true]⟩
    | false =>
      simp only [in_] at drains
      exact other (drains_encryptedPc e.tun rev) drains
  case h_8 drained rev k at_ => exact .inr (.inl ⟨drained, rev, k, at_, rfl, (Option.some.inj taken).symm⟩)
  case h_9 pending drained rev k at_ =>
    exact .inr (.inr ⟨pending, drained, rev, k, at_, rfl, (Option.some.inj taken).symm⟩)
  -- The places after the loop.
  case h_11 rev k at_ =>
    obtain rfl := Option.some.inj taken
    exact other (drains_fillStep e rev k) drains
  case h_12 rev at_ =>
    obtain rfl := Option.some.inj taken
    exact other (drains_extractStep b e rev) drains
  case h_13 pending rev k at_ =>
    obtain rfl := Option.some.inj taken
    exact other (drains_writeStep e pending rev k) drains
  case h_14 at_ =>
    obtain ⟨⟨res, log⟩, h, rfl⟩ := Option.map_eq_some_iff.mp taken
    cases res <;> cases drains
  case h_15 now at_ =>
    obtain rfl := Option.some.inj taken
    exact other (drains_keepaliveStep b e now) drains
  case h_16 at_ =>
    obtain rfl := Option.some.inj taken
    exact other (drains_pressurePc e.tun) drains
  case h_17 now at_ =>
    obtain rfl := Option.some.inj taken
    dsimp only at drains
    split at drains <;> cases drains
  case h_18 at_ =>
    obtain ⟨⟨res, log⟩, h, rfl⟩ := Option.map_eq_some_iff.mp taken
    cases res <;> cases drains
  case h_20 => cases taken
  all_goals
    obtain rfl := Option.some.inj taken
    cases drains

/-! ### The sending side -/

/-- The bytes that `tunnel_run` writes for an accepted frame. -/
def Frame.delivered (f : Frame) : Octets :=
  if f.type = frameClose ∨ f.type = frameKeepalive ∨ f.type = frameKeyconfirm ∨ f.type = frameRekey then []
  else f.payload

/-- From `e` to `e'` no frame is built; bytes are read only on the way into a re-key. -/
structure Endpoint.Idles (e e' : Endpoint) : Prop where
  built : e'.log.built = e.log.built
  key : e'.tun.encKey = e.tun.encKey
  nonce : e'.tun.encNonce = e.tun.encNonce
  read : e'.pc.rekey? = none → e'.log.readPt = e.log.readPt

/-- From `e` to `e'` the frame `r` is built with the next counter, for what is read. -/
structure Endpoint.Builds (e : Endpoint) (r : FrameRec) (e' : Endpoint) : Prop where
  room : e.tun.encNonce < nonceOverflowLimit
  built : e'.log.built = e.log.built ++ [r]
  key : r.key = e.tun.encKey
  ctr : r.ctr = e.tun.encNonce
  tun : e'.tun = e.tun.counted
  read : e'.log.readPt = e.log.readPt ++ r.frame.delivered

theorem Effect.sending {lib : OpenSsl} {b : Backend} {e e' : Endpoint} {ev : Ev} (h : Effect lib b e ev e')
    (plain : e.pc.rekey? = none) (ready : e.pc.Ready e.tun) :
    e'.pc.Ready e'.tun ∧ (e.Idles e' ∨ ∃ r, e.Builds r e') := by
  -- Most steps build nothing and read nothing; they may move `dec_nonce`.
  have idle : ∀ {pc ka rk fr log} {n : UInt64}, log.built = e.log.built → log.readPt = e.log.readPt →
      e.Idles { e with pc := pc, lastKa := ka, lastRekey := rk, fr := fr, log := log, tun := { e.tun with decNonce := n } } :=
    fun built read => ⟨built, rfl, rfl, fun _ => read⟩
  cases h with
  | move at_ goes => exact ⟨goes.ready, .inl (idle rfl rfl)⟩
  | lost d at_ full => exact ⟨Pc.Calm.ready rfl, .inl ⟨rfl, rfl, rfl, fun none_ => by cases none_⟩⟩
  | data at_ room built => exact ⟨trivial, .inr ⟨_, room, rfl, rfl, rfl, rfl, rfl⟩⟩
  | close at_ room built => exact ⟨trivial, .inr ⟨_, room, rfl, rfl, rfl, rfl, (List.append_nil _).symm⟩⟩
  | keepalive at_ built =>
    rw [at_] at ready
    exact ⟨trivial, .inr ⟨_, ready, rfl, rfl, rfl, rfl, (List.append_nil _).symm⟩⟩
  | sent at_ round goes =>
    refine ⟨?_, .inl (idle rfl rfl)⟩
    rcases goes with ⟨_, calm⟩ | rfl
    · exact calm.ready
    · trivial
  | sendFailed at_ => exact ⟨trivial, .inl (idle rfl rfl)⟩
  | sentClose at_ => exact ⟨trivial, .inl (idle rfl rfl)⟩
  | sentKa at_ => exact ⟨(calm_pressurePc e.tun).ready, .inl (idle rfl rfl)⟩
  | filled at_ rest goes =>
    refine ⟨?_, .inl (idle rfl rfl)⟩
    rcases goes with rfl | ⟨_, rfl⟩ <;> trivial
  | accepted at_ room cut parsed => exact ⟨ready_framePc .., .inl (idle rfl rfl)⟩
  | wrote at_ round goes =>
    refine ⟨?_, .inl (idle rfl rfl)⟩
    rcases goes with ⟨_, rfl⟩ | rfl <;> trivial
  | writeFailed at_ => exact ⟨trivial, .inl (idle rfl rfl)⟩
  | respond at_ h => rw [at_] at plain; cases plain
  | initiate at_ h => rw [at_] at plain; cases plain

/-! ### Whole frames -/

section
variable {lib : OpenSsl} {b b' : Backend} {e : Endpoint} {rev : Revents} {w t : Octets} {f : Frame}

variable (lib b) in
theorem step_fill (at_ : e.pc = .fill rev) (more : e.fr.eof = false) (empty : e.fr.rest = []) (some_ : w ≠ [])
    (fits : w.length ≤ frameMaxWire) : ∃ fr, fr.rest = w ∧ fr.eof = false ∧
      step lib b e (.recv (.ofOctets w)) = some { e with fr := fr, log := e.log.recv w, pc := .extract rev } := by
  cases w with
  | nil => exact absurd rfl some_
  | cons x xs =>
    have space : e.fr.compact.space = frameMaxWire := by
      rw [FrameReader.space, FrameReader.buf_compact, empty]; rfl
    have taken : (Offer.ofOctets (x :: xs)).taken e.fr.compact.space = x :: xs := by
      rw [space]; exact List.take_of_length_le fits
    have recvs : e.fr.recvs = true := by
      rw [FrameReader.recvs, more, space]; rfl
    have filled : e.fr.fillBuffer (.ofOctets (x :: xs)) = (.data, e.fr.compact.append (.ofOctets (x :: xs))) := by
      have room : e.fr.compact.space ≠ 0 := by rw [space]; decide
      simp only [FrameReader.fillBuffer, more, Bool.false_eq_true, if_false, if_neg room]
      rfl
    refine ⟨e.fr.compact.append (.ofOctets (x :: xs)), ?_, ?_, ?_⟩
    · rw [FrameReader.rest_append, taken, empty]; rfl
    · exact (FrameReader.eof_compact e.fr).trans more
    · simp only [step, at_, fillStep, recvs, taken, filled, if_true]

variable (lib b) in
theorem step_extract (at_ : e.pc = .extract rev) (room : e.tun.decNonce < nonceOverflowLimit - nonceRekeyMargin)
    (rest : e.fr.rest = w ++ t)
    (built : frameBuild b' f.type f.flags f.payload e.tun.decNonce e.tun.decKey = some w) :
    ∃ fr, fr.rest = t ∧ fr.eof = e.fr.eof ∧ step lib b e .tick = some
      { e with
        fr := fr
        tun := { e.tun with decNonce := e.tun.decNonce + 1 }
        log := e.log.accept ⟨e.tun.decKey, e.tun.decNonce, f, w⟩
        pc := framePc (e.tun.decNonce + 1) f rev } := by
  have cut : wireFraming.cut e.fr.rest = some (w, t) := rest ▸ wireFraming.cut_message (message_frameBuild built) t
  have parsed : frameParse b w e.tun.decNonce e.tun.decKey = .ok f := frameParse_frameBuild built
  rcases tryNext_of_cut (b := b) (n := e.tun.decNonce) cut with ⟨g, fr, next, ok, left, eof⟩ | ⟨_, refused⟩
  · cases ok.symm.trans parsed
    have wire : e.fr.rest.take (e.fr.rest.length - fr.rest.length) = w := by rw [left, rest]; simp
    have room' : e.tun.decNonce < nonceOverflowLimit := UInt64.lt_trans room (by decide)
    refine ⟨fr, left, eof, ?_⟩
    simp only [step, at_, extractStep, if_neg (UInt64.not_le.mpr room), if_neg (UInt64.not_le.mpr room'), next, wire]
  · rw [acceptFrame, parsed] at refused
    cases refused

end

/-! ### Calls of `tunnel_run` -/

theorem before_lt {m : Mode} {keys : SessionKeys} {keepalive : Int64} {ctr : UInt64} {f : Frame}
    (h : m.before = some (ctr, f)) : ctr < (m.tun keys keepalive).encNonce := by
  cases m with
  | client => cases h
  | server => cases h; exact (by decide : (0 : UInt64) < 1)
  | socksClient req => cases h; exact (by decide : (1 : UInt64) < 2)
  | socksServer => cases h; exact (by decide : (0 : UInt64) < 2)

/-- A call by one of the modes: at most one frame has been built before, with a counter below the first. -/
theorem fresh_start {b : Backend} {keys : SessionKeys} {keepalive : Int64} {m : Mode} {e : Endpoint}
    (h : m.start b keys keepalive = some e) : ∃ log, e = tunnelStart (m.tun keys keepalive) log ∧
      (log.built = [] ∨ ∃ r, log.built = [r] ∧ r.key = keys.encKey ∧ r.ctr < (m.tun keys keepalive).encNonce) ∧
      log.accepted = [] ∧ log.readPt = [] ∧ log.wrote = [] := by
  unfold Mode.start at h
  split at h
  next =>
    cases h
    exact ⟨_, rfl, .inl rfl, rfl, rfl, rfl⟩
  next ctr f before =>
    obtain ⟨wire, _, rfl⟩ := Option.map_eq_some_iff.mp h
    exact ⟨_, rfl, .inr ⟨_, rfl, rfl, before_lt before⟩, rfl, rfl, rfl⟩

end AegisTunnel
