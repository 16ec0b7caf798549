import AegisTunnel.Rekey
import AegisTunnel.Theorems.Frame

/-! What a step of `handshake_rekey` can do: one case for each way through the function. -/

namespace AegisTunnel
open Octets

theorem bytes_append_sendAllRound {pending rest : Octets} {k : Sent} (h : sendAllRound pending k = some rest) :
    k.bytes pending ++ rest = pending := by
  cases k with
  | took n =>
    cases n with
    | zero => cases h
    | succ n =>
      cases h
      exact List.take_append_drop (n + 1) pending
  | eintr => cases h; rfl
  | again => cases h
  | error => cases h

theorem recvAllRound_eq {n : Nat} {got rb : Octets} {k : PollRecv} (h : recvAllRound n got k = some rb) :
    rb = got ++ k.taken (n - got.length) := by
  unfold recvAllRound at h
  split at h <;> cases h
  · exact (List.append_nil _).symm
  · rfl
  · exact (List.append_nil _).symm

/-- The bytes of a frame are those that `frame_build` makes of it. -/
def FrameRec.Genuine (f : FrameRec) : Prop :=
  ∃ b, frameBuild b f.frame.type f.frame.flags f.frame.payload f.ctr f.key = some f.wire

theorem parse_genuine {b : Backend} {f : FrameRec} (genuine : f.Genuine) : frameParse b f.wire f.ctr f.key = .ok f.frame := by
  obtain ⟨b', built⟩ := genuine
  exact frameParse_frameBuild built

def rekeyRecord (key : Block) (ctr : UInt64) (own : KeyPair) (wire : Octets) : FrameRec :=
  ⟨key, ctr, ⟨frameRekey, flagNone, own.pub.toList⟩, wire⟩

/-- What a step can do to a call of `handshake_rekey` and to the log. -/
inductive RekeyEffect (lib : OpenSsl) (b : Backend) (psk : Octets) (keys : SessionKeys) (r : Rekey) (log : Log) :
    Ev → RekeyRes → Log → Prop where
  | noKeyPair (at_ : r.pc = .keygen) : RekeyEffect lib b psk keys r log (.keygen none) .failed log
  /-- The initiator builds its frame. -/
  | offer {own wire} (at_ : r.pc = .keygen) (side : r.init = true)
      (built : frameBuild b frameRekey flagNone own.pub.toList r.nc keys.encKey = some wire) :
      RekeyEffect lib b psk keys r log (.keygen (some own)) (.running ⟨r.init, r.nc + 1, .send own wire none⟩)
        (log.build (rekeyRecord keys.encKey r.nc own wire))
  | listen {own} (at_ : r.pc = .keygen) (side : r.init = false) :
      RekeyEffect lib b psk keys r log (.keygen (some own)) (.running ⟨r.init, r.nc, .recv own []⟩) log
  | sendFailed {own pending peer k} (at_ : r.pc = .send own pending peer) (round : sendAllRound pending k = none) :
      RekeyEffect lib b psk keys r log (.send k) .failed (log.send (k.bytes pending))
  | sending {own pending rest peer k} (at_ : r.pc = .send own pending peer)
      (round : k.bytes pending ++ rest = pending) (more : rest ≠ []) :
      RekeyEffect lib b psk keys r log (.send k) (.running ⟨r.init, r.nc, .send own rest peer⟩)
        (log.send (k.bytes pending))
  | sentOffer {own pending k} (at_ : r.pc = .send own pending none) (round : k.bytes pending = pending) :
      RekeyEffect lib b psk keys r log (.send k) (.running ⟨r.init, r.nc, .recv own []⟩) (log.send (k.bytes pending))
  | sentAnswer {own pending ppub k} (at_ : r.pc = .send own pending (some ppub)) (round : k.bytes pending = pending) :
      RekeyEffect lib b psk keys r log (.send k) (.running ⟨r.init, r.nc, .mix own ppub⟩) (log.send (k.bytes pending))
  /-- `recv_all` or `frame_parse` fails. -/
  | recvFailed {own got k} (at_ : r.pc = .recv own got) :
      RekeyEffect lib b psk keys r log (.pollRecv k) .failed (log.recv (k.taken (rekeyWireLen - got.length)))
  | receiving {own got k} (at_ : r.pc = .recv own got)
      (more : (got ++ k.taken (rekeyWireLen - got.length)).length < rekeyWireLen) :
      RekeyEffect lib b psk keys r log (.pollRecv k)
        (.running ⟨r.init, r.nc, .recv own (got ++ k.taken (rekeyWireLen - got.length))⟩)
        (log.recv (k.taken (rekeyWireLen - got.length)))
  /-- The initiator accepts a frame of any type as the answer. -/
  | answered {own got k rb f} (at_ : r.pc = .recv own got) (side : r.init = true)
      (bytes : rb = got ++ k.taken (rekeyWireLen - got.length)) (enough : rekeyWireLen ≤ rb.length)
      (parsed : frameParse b rb r.nc keys.decKey = .ok f) :
      RekeyEffect lib b psk keys r log (.pollRecv k) (.running ⟨r.init, r.nc + 1, .mix own (load 32 f.payload)⟩)
        ((log.recv (k.taken (rekeyWireLen - got.length))).accept ⟨keys.decKey, r.nc, f, rb⟩)
  /-- The responder accepts a frame and builds its answer with the counter after it. -/
  | answer {own got k rb f wire} (at_ : r.pc = .recv own got) (side : r.init = false)
      (bytes : rb = got ++ k.taken (rekeyWireLen - got.length)) (enough : rekeyWireLen ≤ rb.length)
      (parsed : frameParse b rb r.nc keys.decKey = .ok f)
      (built : frameBuild b frameRekey flagNone own.pub.toList (r.nc + 1) keys.encKey = some wire) :
      RekeyEffect lib b psk keys r log (.pollRecv k)
        (.running ⟨r.init, r.nc + 1 + 1, .send own wire (some (load 32 f.payload))⟩)
        (((log.recv (k.taken (rekeyWireLen - got.length))).accept ⟨keys.decKey, r.nc, f, rb⟩).build
          (rekeyRecord keys.encKey (r.nc + 1) own wire))
  | mixFailed {own ppub nc2 ns alloc} (at_ : r.pc = .mix own ppub) :
      RekeyEffect lib b psk keys r log (.mix nc2 ns alloc) .failed log
  | mixed {own ppub nc2 ns sh} (at_ : r.pc = .mix own ppub) (derived : ecdhDerive lib own.priv ppub = some sh) :
      RekeyEffect lib b psk keys r log (.mix nc2 ns true) (.done (rekeyKeys lib r.init psk sh nc2 ns)) log

section
variable {lib : OpenSsl} {b : Backend} {psk : Octets} {keys : SessionKeys} {r : Rekey} {log log' : Log} {ev : Ev}
  {res : RekeyRes}

theorem rekeyBuild_running (b : Backend) (keys : SessionKeys) (r : Rekey) (own : KeyPair) (peer : Option (Word 32))
    (log : Log) : ∃ wire, frameBuild b frameRekey flagNone own.pub.toList r.nc keys.encKey = some wire ∧
      rekeyBuild b keys r own peer log = (.running ⟨r.init, r.nc + 1, .send own wire peer⟩,
        log.build (rekeyRecord keys.encKey r.nc own wire)) := by
  unfold rekeyBuild
  split
  next hb =>
    have := frameBuild_eq_none_iff.mp hb
    rw [own.pub.toList_length] at this
    simp [frameMaxPayload] at this
  next wire hb => exact ⟨wire, hb, rfl⟩

theorem effect_rekeyParse {own : KeyPair} {got rb : Octets} {k : PollRecv} (at_ : r.pc = .recv own got)
    (bytes : rb = got ++ k.taken (rekeyWireLen - got.length)) (enough : rekeyWireLen ≤ rb.length)
    (h : rekeyParse b keys r own rb (log.recv (k.taken (rekeyWireLen - got.length))) = (res, log')) :
    RekeyEffect lib b psk keys r log (.pollRecv k) res log' := by
  unfold rekeyParse at h
  split at h
  next f parsed =>
    cases side : r.init with
    | true =>
      simp only [side, if_true, Prod.mk.injEq] at h
      obtain ⟨rfl, rfl⟩ := h
      have effect : RekeyEffect lib b psk keys r log (.pollRecv k) _ _ := .answered at_ side bytes enough parsed
      rwa [side] at effect
    | false =>
      obtain ⟨wire, built, hb⟩ := rekeyBuild_running b keys { r with nc := r.nc + 1 } own (some (load 32 f.payload))
        ((log.recv (k.taken (rekeyWireLen - got.length))).accept ⟨keys.decKey, r.nc, f, rb⟩)
      simp only [side] at h hb
      simp only [Bool.false_eq_true, if_false, hb, Prod.mk.injEq] at h
      obtain ⟨rfl, rfl⟩ := h
      have effect : RekeyEffect lib b psk keys r log (.pollRecv k) _ _ := .answer at_ side bytes enough parsed built
      rwa [side] at effect
  next =>
    cases h
    exact .recvFailed at_

/-- Every step has one of the effects. -/
theorem rekeyStep_effect (h : rekeyStep lib b psk keys r log ev = some (res, log')) :
    RekeyEffect lib b psk keys r log ev res log' := by
  unfold rekeyStep at h
  split at h
  next at_ => cases h; exact .noKeyPair at_
  next own at_ =>
    split at h
    next side =>
      obtain ⟨wire, built, hb⟩ := rekeyBuild_running b keys r own none log
      rw [hb] at h
      cases h
      exact .offer at_ side built
    next side =>
      cases h
      exact .listen at_ (Bool.eq_false_iff.mpr side)
  next own pending peer k at_ =>
    split at h
    next hr => cases h; exact .sendFailed at_ hr
    next hr =>
      cases h
      exact .sentOffer at_ ((List.append_nil _).symm.trans (bytes_append_sendAllRound hr))
    next hr =>
      cases h
      exact .sentAnswer at_ ((List.append_nil _).symm.trans (bytes_append_sendAllRound hr))
    next peer _ _ rest hr hNone hSome =>
      cases h
      refine .sending at_ (bytes_append_sendAllRound hr) fun sent => ?_
      cases peer with
      | none => exact hNone rfl sent
      | some ppub => exact hSome ppub rfl sent
  next own got k at_ =>
    dsimp only at h
    split at h
    next => cases h; exact .recvFailed at_
    next rb hr =>
      have bytes := recvAllRound_eq hr
      split at h
      next more => cases h; subst bytes; exact .receiving at_ more
      next enough => exact effect_rekeyParse at_ bytes (Nat.not_lt.mp enough) (Option.some.inj h)
  next own ppub nc2 ns alloc at_ =>
    split at h
    next => cases h; exact .mixFailed at_
    next sh derived =>
      split at h
      next done => cases h; subst done; exact .mixed at_ derived
      next => cases h; exact .mixFailed at_
  next => cases h

/-- The initiator sends before it knows the peer's key, the responder afterwards. -/
def Rekey.Wf (r : Rekey) : Prop := ∀ own pending peer, r.pc = .send own pending peer → peer.isNone = r.init

theorem Rekey.wf_start (init : Bool) (nc : UInt64) : (Rekey.start init nc).Wf := by
  intro own pending peer h
  cases h

theorem RekeyEffect.init_eq {r' : Rekey} (h : RekeyEffect lib b psk keys r log ev (.running r') log') :
    r'.init = r.init := by
  cases h <;> rfl

theorem RekeyEffect.wf {r' : Rekey} (h : RekeyEffect lib b psk keys r log ev (.running r') log') (wf : r.Wf) :
    r'.Wf := by
  intro own pending peer sends
  cases h with
  | offer at_ side built => cases sends; exact side.symm
  | answer at_ side bytes enough parsed built => cases sends; exact side.symm
  | sending at_ round more => cases sends; exact wf _ _ _ at_
  | listen | sentOffer | sentAnswer | receiving | answered => cases sends

theorem RekeyEffect.built_cases (h : RekeyEffect lib b psk keys r log ev res log') :
    log'.built = log.built ∨
      ∃ own ctr wire r', res = .running r' ∧ log'.built = log.built ++ [rekeyRecord keys.encKey ctr own wire] := by
  cases h with
  | offer => exact .inr ⟨_, _, _, _, rfl, rfl⟩
  | answer => exact .inr ⟨_, _, _, _, rfl, rfl⟩
  | noKeyPair | listen | sendFailed | sending | sentOffer | sentAnswer | recvFailed | receiving | answered
  | mixFailed | mixed => exact .inl rfl

theorem RekeyEffect.built_eq (h : RekeyEffect lib b psk keys r log ev res log') (ended : ∀ r', res ≠ .running r') :
    log'.built = log.built := by
  rcases h.built_cases with same | ⟨_, _, _, r', goesOn, _⟩
  · exact same
  · exact absurd goesOn (ended r')

end

end AegisTunnel
