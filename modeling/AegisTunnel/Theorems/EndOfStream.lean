import AegisTunnel.Lib.Machine
import AegisTunnel.Session
import AegisTunnel.Theorems.Integrity

/-! # The end of the peer's stream

When `tunnel_run` returns 0 on account of the encrypted side, a CLOSE frame has been received, or the peer has
closed the stream and every byte of it has been parsed, provided that a few things do not happen which it takes
for the end of the stream: `EAGAIN` after `poll`, the end of the stream within a frame, error bits while there
still is something to receive. -/

namespace AegisTunnel
open Octets

/-! ### Bytes received and not yet parsed -/

/-- What `recv_all` has received of the frame it waits for. -/
def Rekey.got (r : Rekey) : Octets :=
  match r.pc with
  | .recv _ got => got
  | _ => []

def Pc.got (pc : Pc) : Octets := (pc.rekey?.map Rekey.got).getD []

/-- The bytes of the frames that have been accepted. -/
def Endpoint.parsed (e : Endpoint) : Octets := e.log.accepted.flatMap (·.wire)

/-- The bytes that wait in the reader or in a re-key. -/
def Endpoint.held (e : Endpoint) : Octets := e.fr.rest ++ e.pc.got

theorem Pc.Quiet.got {pc : Pc} (h : pc.Quiet) : pc.got = [] := by
  cases pc <;> first | rfl | exact h.elim

theorem Pc.Calm.got {tun : Tun} {pc : Pc} (h : pc.Calm tun) : pc.got = [] := by
  cases pc <;> first | rfl | exact h.elim | (cases h; rfl)

theorem got_framePc (n : UInt64) (f : Frame) (rev : Revents) : (framePc n f rev).got = [] := by
  unfold framePc
  split_ifs <;> rfl

/-- A round of `recv_all` in a re-key does not lose what has been received: it does not give up with a part of
    the frame, and the frame is a re-key frame of the peer. -/
def KeepsBytes (b : Backend) (e : Endpoint) : Ev → Prop
  | .pollRecv k => ∀ r own got, e.pc.rekey? = some r → r.pc = .recv own got →
      match recvAllRound rekeyWireLen got k with
      | none => got = []
      | some rb => rb.length < rekeyWireLen ∨ ∃ f, frameParse b rb r.nc e.tun.decKey = .ok f ∧ f.type = frameRekey
  | _ => True

section
variable {lib : OpenSsl} {b : Backend} {e e' : Endpoint} {ev : Ev}

/-- The step receives `x`, and every byte is parsed or held afterwards. -/
def Conserves (e : Endpoint) (x : Octets) (e' : Endpoint) : Prop :=
  e'.log.recvd = e.log.recvd ++ x ∧ (e'.parsed ++ e'.held).Perm (e.parsed ++ e.held ++ x)

theorem Conserves.nothing (recvd : e'.log.recvd = e.log.recvd) (accepted : e'.log.accepted = e.log.accepted)
    (held : e'.held = e.held) : Conserves e [] e' := by
  refine ⟨by rw [recvd, List.append_nil], ?_⟩
  rw [List.append_nil, Endpoint.parsed, accepted, held]
  exact List.Perm.refl _

theorem taken_of_recvAllRound_none {n : Nat} {got : Octets} {k : PollRecv} (h : recvAllRound n got k = none)
    (space : Nat) : k.taken space = [] := by
  cases k with
  | ready k => cases k <;> first | rfl | cases h
  | _ => rfl

/-- A re-key that fails in `recv_all` or on what it has received has received nothing. -/
theorem recvFailed_of_keeps {r : Rekey} {own : KeyPair} {got : Octets} {k : PollRecv} {log : Log}
    (keeps : KeepsBytes b e (.pollRecv k)) (rekey : e.pc.rekey? = some r) (at_ : r.pc = .recv own got)
    (h : rekeyStep lib b e.tun.psk e.tun.keys r e.log (.pollRecv k) = some (.failed, log)) :
    got = [] ∧ k.taken (rekeyWireLen - got.length) = [] := by
  have kept := keeps r own got rekey at_
  simp only [rekeyStep, at_] at h
  cases hround : recvAllRound rekeyWireLen got k with
  | none =>
    rw [hround] at kept
    exact ⟨kept, taken_of_recvAllRound_none hround _⟩
  | some rb =>
    simp only [hround] at h kept
    split at h
    case isTrue => cases h
    case isFalse hfull =>
      obtain ⟨f, parsed, -⟩ := kept.resolve_left hfull
      simp only [Option.some.injEq, rekeyParse, Tun.keys, parsed] at h
      exfalso
      split at h
      · cases h
      · obtain ⟨wire, -, hbuild⟩ := rekeyBuild_running b ⟨e.tun.encKey, e.tun.decKey⟩ { r with nc := r.nc + 1 } own
          (some (load 32 f.payload))
          ((e.log.recv (k.taken (rekeyWireLen - got.length))).accept ⟨e.tun.decKey, r.nc, f, rb⟩)
        rw [hbuild] at h
        cases h

/-- A frame that a re-key accepts is a re-key frame. -/
theorem type_of_keeps {r : Rekey} {own : KeyPair} {got rb : Octets} {k : PollRecv} {f : Frame}
    (keeps : KeepsBytes b e (.pollRecv k)) (rekey : e.pc.rekey? = some r) (at_ : r.pc = .recv own got)
    (bytes : rb = got ++ k.taken (rekeyWireLen - got.length)) (enough : rekeyWireLen ≤ rb.length)
    (parsed : frameParse b rb r.nc e.tun.decKey = .ok f) : f.type = frameRekey := by
  have kept := keeps r own got rekey at_
  cases hround : recvAllRound rekeyWireLen got k with
  | none =>
    simp only [hround] at kept
    rw [bytes, kept, taken_of_recvAllRound_none hround, List.append_nil, List.length_nil] at enough
    exact absurd enough (by decide)
  | some rb' =>
    obtain rfl : rb' = rb := (recvAllRound_eq hround).trans bytes.symm
    simp only [hround] at kept
    obtain ⟨f', parsed', type⟩ := kept.resolve_left (Nat.not_lt.mpr enough)
    cases parsed'.symm.trans parsed
    exact type

def RekeyRes.got : RekeyRes → Octets
  | .running r => r.got
  | _ => []

/-- What a re-key has received is part of a frame that it waits for, or of one that it has accepted, and its
    frames are not for the plaintext side. -/
structure RekeyKeeps (r : Rekey) (log : Log) (x : Octets) (res : RekeyRes) (log' : Log) : Prop where
  recvd : log'.recvd = log.recvd ++ x
  bytes : log'.accepted.flatMap (·.wire) ++ res.got = log.accepted.flatMap (·.wire) ++ (r.got ++ x)
  wrote : log'.wrote = log.wrote
  delivered : log'.accepted.flatMap (·.frame.delivered) = log.accepted.flatMap (·.frame.delivered)

theorem rekey_keeps {r : Rekey} {res : RekeyRes} {log : Log} (rekey : e.pc.rekey? = some r) (keeps : KeepsBytes b e ev)
    (taken : rekeyStep lib b e.tun.psk e.tun.keys r e.log ev = some (res, log)) :
    ∃ x, RekeyKeeps r e.log x res log := by
  have idle : r.got = [] → res.got = [] → log.recvd = e.log.recvd → log.accepted = e.log.accepted →
      log.wrote = e.log.wrote → ∃ x, RekeyKeeps r e.log x res log := by
    intro none_ none' recvd accepted wrote
    exact ⟨[], by rw [recvd, List.append_nil], by rw [accepted, none_, none']; rfl, wrote, by rw [accepted]⟩
  have accept : ∀ {g : FrameRec}, g.frame.type = frameRekey →
      (e.log.accepted ++ [g]).flatMap (·.frame.delivered) = e.log.accepted.flatMap (·.frame.delivered) := by
    intro g type
    rw [List.flatMap_append, List.flatMap_singleton, Frame.delivered, if_pos (by simp [type]), List.append_nil]
  cases rekeyStep_effect taken with
  | noKeyPair at_ => exact idle (by rw [Rekey.got, at_]) rfl rfl rfl rfl
  | offer at_ side built => exact idle (by rw [Rekey.got, at_]) rfl rfl rfl rfl
  | listen at_ side => exact idle (by rw [Rekey.got, at_]) rfl rfl rfl rfl
  | sendFailed at_ round => exact idle (by rw [Rekey.got, at_]) rfl rfl rfl rfl
  | sending at_ round more => exact idle (by rw [Rekey.got, at_]) rfl rfl rfl rfl
  | sentOffer at_ round => exact idle (by rw [Rekey.got, at_]) rfl rfl rfl rfl
  | sentAnswer at_ round => exact idle (by rw [Rekey.got, at_]) rfl rfl rfl rfl
  | recvFailed at_ =>
    obtain ⟨none_, nothing⟩ := recvFailed_of_keeps keeps rekey at_ taken
    refine idle (by rw [Rekey.got, at_]; exact none_) rfl ?_ rfl rfl
    rw [Log.recv, nothing, List.append_nil]
  | @receiving own got k at_ more =>
    exact ⟨k.taken (rekeyWireLen - got.length), rfl, by rw [Rekey.got, at_]; rfl, rfl, rfl⟩
  | @answered own got k rb f at_ side bytes enough parsed =>
    refine ⟨k.taken (rekeyWireLen - got.length), rfl, ?_, rfl, accept (type_of_keeps keeps rekey at_ bytes enough parsed)⟩
    rw [Rekey.got, at_, ← bytes]
    simp [Log.accept, Log.recv, RekeyRes.got, Rekey.got]
  | @answer own got k rb f wire at_ side bytes enough parsed built =>
    refine ⟨k.taken (rekeyWireLen - got.length), rfl, ?_, rfl, accept (type_of_keeps keeps rekey at_ bytes enough parsed)⟩
    rw [Rekey.got, at_, ← bytes]
    simp [Log.accept, Log.recv, Log.build, RekeyRes.got, Rekey.got]
  | mixFailed at_ => exact idle (by rw [Rekey.got, at_]) rfl rfl rfl rfl
  | mixed at_ derived => exact idle (by rw [Rekey.got, at_]) rfl rfl rfl rfl

theorem Conserves.rekey {r : Rekey} {res : RekeyRes} {log : Log} {x : Octets} (kept : RekeyKeeps r e.log x res log)
    (got : e.pc.got = r.got) (got' : e'.pc.got = res.got) (fr : e'.fr = e.fr) (same : e'.log = log) : Conserves e x e' := by
  refine ⟨by rw [same]; exact kept.recvd, ?_⟩
  rw [Endpoint.parsed, Endpoint.held, Endpoint.parsed, Endpoint.held, same, fr, got, got']
  have bytes := kept.bytes
  refine List.perm_iff_count.mpr fun a => ?_
  have counts := congrArg (List.count a) bytes
  simp only [List.count_append] at counts ⊢
  omega

theorem Effect.conserves (h : Effect lib b e ev e') (keeps : KeepsBytes b e ev) : ∃ x, Conserves e x e' := by
  -- Most steps neither receive nor accept anything.
  have idle : ∀ {pc ka rk log} {tun : Tun}, e.pc.got = [] → pc.got = [] → log.recvd = e.log.recvd →
      log.accepted = e.log.accepted →
      ∃ x, Conserves e x { e with pc := pc, lastKa := ka, lastRekey := rk, log := log, tun := tun } := by
    intro pc ka rk log tun none_ none' recvd accepted
    exact ⟨[], .nothing recvd accepted (by rw [Endpoint.held, Endpoint.held, none_, none'])⟩
  cases h with
  | move at_ goes => exact idle at_.got goes.got rfl rfl
  | lost d at_ full => exact idle at_.got rfl rfl rfl
  | data at_ room built => exact idle at_.got rfl rfl rfl
  | close at_ room built => exact idle at_.got rfl rfl rfl
  | keepalive at_ built => exact idle (by rw [at_]; rfl) rfl rfl rfl
  | sent at_ round goes =>
    refine idle (by rw [at_]; rfl) ?_ rfl rfl
    rcases goes with ⟨_, calm⟩ | rfl
    · exact calm.got
    · rfl
  | sendFailed at_ => exact idle (by rw [at_]; rfl) rfl rfl rfl
  | sentClose at_ => exact idle (by rw [at_]; rfl) rfl rfl rfl
  | sentKa at_ => exact idle (by rw [at_]; rfl) (calm_pressurePc e.tun).got rfl rfl
  | @filled ev x fr rev pc at_ rest goes =>
    refine ⟨x, rfl, ?_⟩
    have none_ : pc.got = [] := by rcases goes with rfl | ⟨_, rfl⟩ <;> rfl
    rw [Endpoint.held, Endpoint.held, at_]
    show (e.parsed ++ (fr.rest ++ pc.got)).Perm _
    rw [rest, none_]
    simp [Pc.got, Pc.rekey?]
  | @accepted w f fr rev at_ room cut parsed =>
    refine ⟨[], (List.append_nil _).symm, ?_⟩
    have split := (wireFraming.cut_eq_some_iff.mp cut).2
    show ((e.log.accepted ++ [_]).flatMap FrameRec.wire ++ (fr.rest ++ (framePc _ f rev).got)).Perm _
    rw [got_framePc, Endpoint.held, at_, split]
    simp [Endpoint.parsed, Pc.got, Pc.rekey?]
  | wrote at_ round goes =>
    refine idle (by rw [at_]; rfl) ?_ rfl rfl
    rcases goes with ⟨_, rfl⟩ | rfl <;> rfl
  | writeFailed at_ => exact idle (by rw [at_]; rfl) rfl rfl rfl
  | @respond ev r rev res at_ taken =>
    obtain ⟨res, log⟩ := res
    obtain ⟨x, kept⟩ := rekey_keeps (by rw [at_]; rfl) keeps taken
    exact ⟨x, .rekey kept (by rw [at_]; rfl) (by cases res <;> rfl) (by cases res <;> rfl) (by cases res <;> rfl)⟩
  | @initiate ev r res at_ taken =>
    obtain ⟨res, log⟩ := res
    obtain ⟨x, kept⟩ := rekey_keeps (by rw [at_]; rfl) keeps taken
    exact ⟨x, .rekey kept (by rw [at_]; rfl) (by cases res <;> rfl) (by cases res <;> rfl) (by cases res <;> rfl)⟩

/-- What has been accepted for the plaintext side has been written, up to what is being written. -/
def Endpoint.Written (e : Endpoint) : Prop :=
  e.log.wrote ++ e.pc.unwritten = e.log.accepted.flatMap (·.frame.delivered)

theorem Effect.written (h : Effect lib b e ev e') (keeps : KeepsBytes b e ev) (written : e.Written) :
    e'.Written ∨ e'.pc = .returned (-1) := by
  have idle : e.pc.unwritten = [] → e'.pc.unwritten = [] → e'.log.wrote = e.log.wrote →
      e'.log.accepted = e.log.accepted → e'.Written ∨ e'.pc = .returned (-1) := by
    intro none_ none' wrote accepted
    refine .inl ?_
    rw [Endpoint.Written, none', wrote, accepted, ← none_]
    exact written
  cases h with
  | move at_ goes => exact idle at_.unwritten goes.unwritten rfl rfl
  | lost d at_ full => exact idle at_.unwritten rfl rfl rfl
  | data at_ room built => exact idle at_.unwritten rfl rfl rfl
  | close at_ room built => exact idle at_.unwritten rfl rfl rfl
  | keepalive at_ built => exact idle (by rw [at_]; rfl) rfl rfl rfl
  | sent at_ round goes =>
    refine idle (by rw [at_]; rfl) ?_ rfl rfl
    rcases goes with ⟨_, calm⟩ | rfl
    · exact calm.unwritten
    · rfl
  | sendFailed at_ => exact .inr rfl
  | sentClose at_ => exact idle (by rw [at_]; rfl) rfl rfl rfl
  | sentKa at_ => exact idle (by rw [at_]; rfl) (calm_pressurePc e.tun).unwritten rfl rfl
  | filled at_ rest goes =>
    refine idle (by rw [at_]; rfl) ?_ rfl rfl
    rcases goes with rfl | ⟨_, rfl⟩ <;> rfl
  | @accepted w f fr rev at_ room cut parsed =>
    refine .inl ?_
    rw [Endpoint.Written, at_] at written
    show e.log.wrote ++ (framePc _ f rev).unwritten = (e.log.accepted ++ [_]).flatMap _
    rw [unwritten_framePc, List.flatMap_append, ← written]
    simp [Pc.unwritten]
  | @wrote k pending rest rev pc at_ round goes =>
    refine .inl ?_
    rw [Endpoint.Written, at_] at written
    have left : pc.unwritten = rest := by rcases goes with ⟨rfl, rfl⟩ | rfl <;> rfl
    show e.log.wrote ++ k.bytes pending ++ pc.unwritten = _
    rw [left, List.append_assoc, round]
    exact written
  | writeFailed at_ => exact .inr rfl
  | @respond ev r rev res at_ taken =>
    obtain ⟨res, log⟩ := res
    obtain ⟨x, kept⟩ := rekey_keeps (by rw [at_]; rfl) keeps taken
    refine .inl ?_
    rw [Endpoint.Written, at_] at written
    cases res <;> exact (congrArg (· ++ []) kept.wrote).trans (written.trans kept.delivered.symm)
  | @initiate ev r res at_ taken =>
    obtain ⟨res, log⟩ := res
    obtain ⟨x, kept⟩ := rekey_keeps (by rw [at_]; rfl) keeps taken
    refine .inl ?_
    rw [Endpoint.Written, at_] at written
    cases res <;> exact (congrArg (· ++ []) kept.wrote).trans (written.trans kept.delivered.symm)

/-! ### How a call ends the tunnel -/

/-- The answer of `poll` whose error bits are tested right after a call: the plaintext side is through, and on the
    encrypted side there is nothing to receive, or no frame left to take. -/
def tested (b : Backend) (e : Endpoint) (ev : Ev) : Option Revents :=
  match e.pc, ev with
  | .poll, .poll (.ready rev) => if rev.ptIn || rev.encIn then none else some rev
  | .read _ rev, .read .again => if rev.encIn then none else some rev
  | .sendData pending drained rev, .send k =>
    if rev.encIn || writeAllRound pending k != some [] || decide (drained < 256) then none else some rev
  | .extract rev, .tick =>
    match frameReaderTryNext b e.fr e.tun.decNonce e.tun.decKey with
    | .more => some rev
    | _ => none
  | _, _ => none

theorem returnsZero_pressurePc (tun : Tun) : (pressurePc tun).returnsZero = false := by
  unfold pressurePc
  split_ifs <;> rfl

/-- The error conditions end the tunnel on account of the encrypted side when `poll` reports them for it alone. -/
theorem encErr_of_errorsPc {tun : Tun} {rev : Revents} (zero : (errorsPc tun rev).returnsZero = true)
    (side : rev.endedBy = .encrypted) : rev.ptErr = false ∧ rev.encErr = true := by
  have noPt : rev.ptErr = false := by
    cases hpt : rev.ptErr with
    | false => rfl
    | true => simp [Revents.endedBy, hpt] at side
  refine ⟨noPt, ?_⟩
  by_contra noErr
  unfold errorsPc keepalivePc at zero
  simp only [noPt, noErr, Bool.false_eq_true, if_false] at zero
  split at zero
  · cases zero
  · rw [returnsZero_pressurePc] at zero
    cases zero

theorem encErr_of_encryptedPc {tun : Tun} {rev : Revents} (zero : (encryptedPc tun rev).returnsZero = true)
    (side : rev.endedBy = .encrypted) : rev.encIn = false ∧ rev.ptErr = false ∧ rev.encErr = true := by
  unfold encryptedPc at zero
  split at zero
  next => cases zero
  next noData => exact ⟨eq_false_of_ne_true noData, encErr_of_errorsPc zero side⟩

theorem close_of_framePc {n : UInt64} {f : Frame} {rev : Revents} (zero : (framePc n f rev).returnsZero = true) :
    f.type = frameClose := by
  unfold framePc at zero
  split at zero
  next close => exact close
  next => split_ifs at zero <;> cases zero

theorem tryNext_eof {fr fr' : FrameReader} {n : UInt64} {key : Block} {f : Frame}
    (h : frameReaderTryNext b fr n key = .frame f fr') : fr'.eof = fr.eof := by
  obtain ⟨w, cut, -⟩ := tryNext_frame h
  rcases tryNext_of_cut (b := b) (n := n) cut with ⟨g, fr₁, ht, -, -, eof⟩ | ⟨ht, -⟩
  · cases ht.symm.trans h
    exact eof
  · cases ht.symm.trans h

/-- The reader stays open while the tunnel runs, and when a step ends it on account of the encrypted side, then by a
    CLOSE frame, by the error bits tested after it, or by what `recv` has answered. -/
structure EndsBy (b : Backend) (e : Endpoint) (ev : Ev) (e' : Endpoint) : Prop where
  opens : e.fr.eof = false → (∀ ret, e'.pc ≠ .returned ret) → e'.fr.eof = false
  ends : e.fr.eof = false → e'.pc.returnsZero = true → endedBy b e ev = .encrypted →
    (∃ g ∈ e'.log.accepted, g.frame.type = frameClose) ∨
      (∃ rev, tested b e ev = some rev ∧ rev.ptErr = false ∧ rev.encErr = true) ∨
      (ev = .recv .eof ∨ ev = .recv .again) ∧ e'.fr.rest = e.fr.rest

/-- A step that does not end the tunnel on account of the encrypted side. -/
theorem EndsBy.out (fr : e'.fr = e.fr) (goesOn : e'.pc.returnsZero = true → endedBy b e ev ≠ .encrypted) :
    EndsBy b e ev e' :=
  ⟨fun still _ => fr ▸ still, fun _ zero side => absurd side (goesOn zero)⟩

theorem EndsBy.goesOn (fr : e'.fr = e.fr) (goesOn : e'.pc.returnsZero = false) : EndsBy b e ev e' := by
  refine .out fr fun zero => ?_
  rw [goesOn] at zero
  cases zero

/-- A step to the encrypted side of a round. -/
theorem EndsBy.encrypted {rev : Revents} {log : Log} (tests : rev.encIn = false → tested b e ev = some rev)
    (side : endedBy b e ev = rev.endedBy) : EndsBy b e ev { e with pc := encryptedPc e.tun rev, log := log } := by
  refine ⟨fun still _ => still, fun _ zero ended => ?_⟩
  obtain ⟨noData, err⟩ := encErr_of_encryptedPc zero (side ▸ ended)
  exact .inr (.inl ⟨rev, tests noData, err⟩)

theorem endsBy_read {drained : Nat} {rev : Revents} (k : Offer) (at_ : e.pc = .read drained rev) :
    EndsBy b e (.read k) (readStep b e drained rev k) := by
  cases k with
  | data x xs =>
    simp only [readStep, sendDataStep, Endpoint.build]
    split
    · exact .goesOn rfl rfl
    · split
      · exact .goesOn rfl rfl
      · exact .goesOn rfl rfl
  | eof =>
    have side : endedBy b e (.read .eof) ≠ .encrypted := by simp [endedBy, at_]
    simp only [readStep, Endpoint.build]
    split
    · split
      · exact .out rfl fun _ => side
      · exact .goesOn rfl rfl
    · exact .out rfl fun _ => side
  | eintr => exact .goesOn rfl (by rw [readStep, at_]; rfl)
  | again => exact .encrypted (fun noData => by simp [tested, at_, noData]) (by simp [endedBy, at_])
  | error => exact .goesOn rfl rfl

theorem endsBy_sendData {pending : Octets} {drained : Nat} {rev : Revents} (k : Sent)
    (at_ : e.pc = .sendData pending drained rev) :
    EndsBy b e (.send k) (sendDataRound e pending drained rev k) := by
  unfold sendDataRound
  dsimp only
  split
  · exact .goesOn rfl rfl
  next sent =>
    split
    next last => exact .encrypted (fun noData => by simp [tested, at_, noData, sent]; omega) (by simp [endedBy, at_])
    next => exact .goesOn rfl rfl
  · exact .goesOn rfl rfl

theorem endsBy_write {pending : Octets} {rev : Revents} (k : Sent) :
    EndsBy b e (.write k) (writeStep e pending rev k) := by
  unfold writeStep
  dsimp only
  split
  · exact .goesOn rfl rfl
  · exact .goesOn rfl rfl
  · exact .goesOn rfl rfl

theorem endsBy_keepalive (now : Int64) : EndsBy b e ev (keepaliveStep b e now) := by
  unfold keepaliveStep Endpoint.build
  dsimp only
  split
  · split
    · exact .goesOn rfl (returnsZero_pressurePc e.tun)
    · exact .goesOn rfl rfl
  · exact .goesOn rfl (returnsZero_pressurePc e.tun)

/-- An open reader finds the end by the answer of `recv` only. -/
theorem fillBuffer_none {fr fr' : FrameReader} {k : Offer} (still : fr.eof = false)
    (h : fr.fillBuffer k = (.none, fr')) : (k = .eof ∨ k = .again) ∧ fr'.rest = fr.rest := by
  unfold FrameReader.fillBuffer at h
  simp only [still, Bool.false_eq_true, if_false] at h
  split at h
  · cases h
  · cases k with
    | eof =>
      cases h
      exact ⟨.inl rfl, fr.rest_compact⟩
    | again =>
      cases h
      exact ⟨.inr rfl, fr.rest_compact⟩
    | _ => cases h

theorem fillBuffer_data {fr fr' : FrameReader} {k : Offer} (still : fr.eof = false)
    (h : fr.fillBuffer k = (.data, fr')) : fr'.eof = false := by
  have same := fr.eof_compact.trans still
  unfold FrameReader.fillBuffer at h
  simp only [still, Bool.false_eq_true, if_false] at h
  split at h
  · cases h
  · cases k with
    | data x xs =>
      cases h
      exact same
    | eintr =>
      cases h
      exact same
    | _ => cases h

theorem endsBy_fill {rev : Revents} (k : Offer) : EndsBy b e (.recv k) (fillStep e rev k) := by
  unfold fillStep
  dsimp only
  split
  next => exact ⟨fun _ running => absurd rfl (running _), fun _ zero => (by cases zero)⟩
  next fr none_ =>
    refine ⟨fun _ running => absurd rfl (running _), fun still _ _ => .inr (.inr ?_)⟩
    obtain ⟨why, rest⟩ := fillBuffer_none still none_
    exact ⟨why.imp (congrArg Ev.recv) (congrArg Ev.recv), rest⟩
  next fr data => exact ⟨fun still _ => fillBuffer_data still data, fun _ zero => by cases zero⟩

theorem endsBy_extract {rev : Revents} (at_ : e.pc = .extract rev) : EndsBy b e .tick (extractStep b e rev) := by
  unfold extractStep
  split
  · exact .goesOn rfl rfl
  · split
    · exact .goesOn rfl rfl
    · split
      next more =>
        refine ⟨fun still _ => still, fun _ zero ended => .inr (.inl ⟨rev, by simp [tested, at_, more], ?_⟩)⟩
        exact encErr_of_errorsPc zero (by simpa [endedBy, at_, more] using ended)
      next => exact .goesOn rfl rfl
      next f fr frame =>
        refine ⟨fun still _ => (tryNext_eof frame).trans still, fun _ zero _ => ?_⟩
        exact .inl ⟨_, List.mem_append_right _ (List.mem_singleton_self _), close_of_framePc zero⟩

theorem step_endsBy (taken : step lib b e ev = some e') : EndsBy b e ev e' := by
  unfold step at taken
  split at taken
  case h_4 at_ =>
    obtain rfl := Option.some.inj taken
    exact .out rfl fun _ => by simp [endedBy, at_]
  case h_7 rev at_ =>
    obtain rfl := Option.some.inj taken
    split
    next => exact .goesOn rfl rfl
    next noPt => exact .encrypted (fun noData => by simp [tested, at_, noData, noPt]) (by simp [endedBy, at_])
  case h_8 k at_ => exact Option.some.inj taken ▸ endsBy_read k at_
  case h_9 k at_ => exact Option.some.inj taken ▸ endsBy_sendData k at_
  case h_10 at_ =>
    obtain rfl := Option.some.inj taken
    exact .out rfl fun _ => by simp [endedBy, at_]
  case h_11 k at_ => exact Option.some.inj taken ▸ endsBy_fill k
  case h_12 at_ => exact Option.some.inj taken ▸ endsBy_extract at_
  case h_13 k at_ => exact Option.some.inj taken ▸ endsBy_write k
  case h_14 rev at_ =>
    obtain ⟨⟨res, log⟩, -, rfl⟩ := Option.map_eq_some_iff.mp taken
    cases res with
    | _ => exact .goesOn rfl rfl
  case h_15 now at_ => exact Option.some.inj taken ▸ endsBy_keepalive now
  case h_16 at_ => exact Option.some.inj taken ▸ .goesOn rfl (returnsZero_pressurePc e.tun)
  case h_17 at_ =>
    obtain rfl := Option.some.inj taken
    split
    · exact .goesOn rfl rfl
    · exact .goesOn rfl rfl
  case h_18 at_ =>
    obtain ⟨⟨res, log⟩, -, rfl⟩ := Option.map_eq_some_iff.mp taken
    cases res with
    | _ => exact .goesOn rfl rfl
  case h_20 => cases taken
  all_goals
    obtain rfl := Option.some.inj taken
    exact .goesOn rfl rfl

/-- An empty reader that receives nothing stays empty. -/
theorem Effect.rest_nil (h : Effect lib b e ev e') (none_ : e.fr.rest = []) (recvd : e'.log.recvd = e.log.recvd) :
    e'.fr.rest = [] := by
  cases h with
  | filled at_ rest goes =>
    have nothing := List.append_right_eq_self.mp recvd
    exact rest.trans (by rw [none_, nothing]; rfl)
  | accepted at_ room cut parsed =>
    have split := (wireFraming.cut_eq_some_iff.mp cut).2
    exact (List.append_eq_nil_iff.mp (split.symm.trans none_)).2
  | @respond ev r rev res at_ taken =>
    obtain ⟨res, log⟩ := res
    cases res with
    | _ => exact none_
  | @initiate ev r res at_ taken =>
    obtain ⟨res, log⟩ := res
    cases res with
    | _ => exact none_
  | _ => exact none_

end

/-! ### Whole runs -/

theorem eq_of_returnsZero {pc : Pc} (h : pc.returnsZero = true) : pc = .returned 0 := by
  cases pc with
  | returned ret => exact congrArg Pc.returned (beq_iff_eq.mp h)
  | _ => cases h

theorem recvd_start {b : Backend} {m : Mode} {keys : SessionKeys} {keepalive : Int64} {e : Endpoint}
    (h : m.start b keys keepalive = some e) : e.log.recvd = [] := by
  unfold Mode.start at h
  split at h
  · cases h
    rfl
  · obtain ⟨wire, -, rfl⟩ := Option.map_eq_some_iff.mp h
    rfl

namespace Session

/-- The peer has closed the stream, and nothing of it waits, neither on the connection nor in the reader. -/
def Drained (s : Session) : Prop := s.stream.closed = true ∧ s.stream.queued = [] ∧ s.endpoint.fr.rest = []

/-- A drained stream of which every byte has been parsed, and what the frames carry has been written. -/
structure Complete (s : Session) : Prop where
  drained : s.Drained
  parsed : s.endpoint.parsed.Perm s.stream.sent
  wrote : s.endpoint.log.wrote = s.endpoint.log.accepted.flatMap (·.frame.delivered)

/-- What is not the end of a complete stream and yet ends the tunnel, or loses bytes of the stream, does not happen in a
    call: `recv` does not find nothing after `poll` has announced something, the stream does not end within a frame, no
    re-key fails with bytes it has received, and error bits of the encrypted side are not tested before the stream is
    drained. -/
structure MeetsCall (b : Backend) (s : Session) (ev : Ev) : Prop where
  data : ev ≠ .recv .again
  whole : ev = .recv .eof → s.endpoint.fr.rest = []
  keeps : KeepsBytes b s.endpoint ev
  drained : ∀ rev, tested b s.endpoint ev = some rev → rev.ptErr = false → rev.encErr = true → s.Drained

def Meets (b : Backend) (s : Session) : SessionEv → Prop
  | .call ev => s.MeetsCall b ev
  | _ => True

structure Inv (s : Session) : Prop where
  split : s.stream.sent = s.endpoint.log.recvd ++ s.stream.queued
  kept : (s.endpoint.parsed ++ s.endpoint.held).Perm s.endpoint.log.recvd
  reads : (∀ ret, s.endpoint.pc ≠ .returned ret) → s.endpoint.fr.eof = false
  written : s.endpoint.Written ∨ s.endpoint.pc = .returned (-1)
  zero : s.ended.isSome = true → s.endpoint.pc = .returned 0
  ends : s.ended = some .encrypted → (∃ g ∈ s.endpoint.log.accepted, g.frame.type = frameClose) ∨ s.Drained

namespace Inv
variable {lib : OpenSsl} {b : Backend} {s s' : Session} {ev : Ev}

/-- A complete stream is what is left when a drained one ends the tunnel. -/
theorem complete (inv : s.Inv) (ended : s.ended = some .encrypted) (drained : s.Drained) : s.Complete := by
  have at_ : s.endpoint.pc = .returned 0 := inv.zero (by rw [ended]; rfl)
  refine ⟨drained, ?_, ?_⟩
  · have kept := inv.kept
    rw [Endpoint.held, drained.2.2, at_, show [] ++ (Pc.returned 0).got = [] from rfl, List.append_nil] at kept
    rw [inv.split, drained.2.1, List.append_nil]
    exact kept
  · have written := inv.written.resolve_right fun failed => by cases at_.symm.trans failed
    rw [Endpoint.Written, at_] at written
    exact (List.append_nil _).symm.trans written

theorem arrive (inv : s.Inv) {bytes : Octets} (taken : s.step lib b (.arrive bytes) = some s') : s'.Inv := by
  simp only [Session.step] at taken
  split at taken
  · cases taken
  · next closed =>
    obtain rfl := Option.some.inj taken
    have still : ¬ s.Drained := fun drained => closed drained.1
    refine ⟨?_, inv.kept, inv.reads, inv.written, inv.zero, fun ended => .inl ((inv.ends ended).resolve_right still)⟩
    show s.stream.sent ++ bytes = s.endpoint.log.recvd ++ (s.stream.queued ++ bytes)
    rw [inv.split, List.append_assoc]

theorem close (inv : s.Inv) (taken : s.step lib b .close = some s') : s'.Inv := by
  simp only [Session.step] at taken
  split at taken
  · cases taken
  · next closed =>
    obtain rfl := Option.some.inj taken
    have still : ¬ s.Drained := fun drained => closed drained.1
    exact ⟨inv.split, inv.kept, inv.reads, inv.written, inv.zero, fun ended => .inl ((inv.ends ended).resolve_right still)⟩

/-- What a call does: its step takes `x` off what is queued. -/
theorem onCall_eq (keeps : KeepsBytes b s.endpoint ev) (taken : s.onCall lib b ev = some s') :
    s.stream.answers ev = true ∧ AegisTunnel.step lib b s.endpoint ev = some s'.endpoint ∧
      s'.stream.sent = s.stream.sent ∧ s'.stream.closed = s.stream.closed ∧
      s'.ended = (if s'.endpoint.pc.returnsZero then some (endedBy b s.endpoint ev) else none) ∧
      ∃ x, s.stream.queued = x ++ s'.stream.queued ∧ Conserves s.endpoint x s'.endpoint := by
  simp only [onCall] at taken
  split at taken
  case isFalse => cases taken
  case isTrue answers =>
    obtain ⟨e', stepped, taken⟩ := Option.bind_eq_some_iff.mp taken
    obtain ⟨x, conserves⟩ := (step_effect stepped).conserves keeps
    rw [conserves.1, List.drop_left] at taken
    split at taken
    case isFalse => cases taken
    case isTrue front =>
      obtain rfl := Option.some.inj taken
      refine ⟨answers, stepped, rfl, rfl, rfl, x, ?_, conserves⟩
      obtain ⟨q, split⟩ := List.isPrefixOf_iff_prefix.mp front
      rw [← split, List.drop_left]

theorem call (inv : s.Inv) (meets : s.MeetsCall b ev) (taken : s.step lib b (.call ev) = some s') : s'.Inv := by
  obtain ⟨answers, stepped, sent, closed, ended, x, queued, recvd, kept⟩ := onCall_eq meets.keeps taken
  have running := running_of_step stepped
  have effect := step_effect stepped
  have how := step_endsBy stepped
  -- A drained stream has nothing to receive, and stays drained.
  have stays : s.Drained → s'.Drained := by
    rintro ⟨end_, empty, rest⟩
    obtain ⟨rfl, left⟩ := List.append_eq_nil_iff.mp (queued.symm.trans empty)
    exact ⟨closed.trans end_, left, effect.rest_nil rest (recvd.trans (List.append_nil _))⟩
  refine ⟨?_, ?_, how.opens (inv.reads running), effect.written meets.keeps (inv.written.resolve_right (running _)),
    fun some_ => ?_, fun side => ?_⟩
  · rw [sent, inv.split, queued, recvd, List.append_assoc]
  · rw [recvd]
    exact kept.trans (inv.kept.append_right x)
  · rw [ended] at some_
    split at some_
    next zero => exact eq_of_returnsZero zero
    next => cases some_
  · rw [ended] at side
    split at side
    case isFalse => cases side
    case isTrue zero =>
      rcases how.ends (inv.reads running) zero (Option.some.inj side) with close | ⟨rev, at_, noPt, err⟩ | ⟨rfl | rfl, rest⟩
      · exact .inl close
      · exact .inr (stays (meets.drained rev at_ noPt err))
      · have end_ := Bool.and_eq_true_iff.mp answers
        exact .inr (stays ⟨end_.1, List.isEmpty_iff.mp end_.2, meets.whole rfl⟩)
      · exact absurd rfl meets.data

theorem step (inv : s.Inv) {ev : SessionEv} (taken : s.step lib b ev = some s') (meets : s.Meets b ev) : s'.Inv := by
  cases ev with
  | arrive bytes => exact inv.arrive taken
  | close => exact inv.close taken
  | call ev => exact inv.call meets taken

theorem start {m : Mode} {keys : SessionKeys} {keepalive : Int64} {e : Endpoint} (h : m.start b keys keepalive = some e)
    (bytes : Octets) (closed : Bool) : (Session.start e bytes closed).Inv := by
  have fresh := Fresh.start h
  have none_ := recvd_start h
  have at_ : e.pc = .startKa := by rw [fresh.call]; rfl
  have reader : e.fr = frameReaderInit := by rw [fresh.call]; rfl
  refine ⟨?_, ?_, fun _ => ?_, .inl ?_, fun h => (by cases h), fun h => (by cases h)⟩
  · show bytes = e.log.recvd ++ bytes
    rw [none_]
    rfl
  · show (e.parsed ++ e.held).Perm e.log.recvd
    rw [Endpoint.parsed, Endpoint.held, fresh.accepted, reader, at_, none_]
    exact List.Perm.refl _
  · show e.fr.eof = false
    rw [reader]
    rfl
  · show e.log.wrote ++ e.pc.unwritten = _
    rw [fresh.wrote, at_]
    show [] = e.log.accepted.flatMap _
    rw [fresh.accepted]
    rfl

end Inv

end Session

/-- In every run in which `recv` does not answer `EAGAIN` after `poll`, the stream does not end within a frame, error
    bits of the encrypted side are not tested before its stream is drained, and no re-key fails with bytes it has
    received: when `tunnel_run` has returned 0 on account of the encrypted side, a CLOSE frame has been accepted, or
    the peer has closed the stream, every byte of it has been parsed, and every frame has been delivered. -/
theorem clean_end_complete (lib : OpenSsl) (b : Backend) (m : Mode) (keys : SessionKeys) (keepalive : Int64)
    (bytes : Octets) (closed : Bool) (e : Endpoint) (s : Session) (start : m.start b keys keepalive = some e)
    (run : Machine.Steps (Session.step lib b) (fun s ev _ => s.Meets b ev) (Session.start e bytes closed) s)
    (ended : s.ended = some .encrypted) :
    (∃ g ∈ s.endpoint.log.accepted, g.frame.type = frameClose) ∨ s.Complete := by
  have inv : s.Inv := run.invariant (.start start bytes closed) fun inv taken meets => inv.step taken meets
  exact (inv.ends ended).imp_right (inv.complete ended)

/-! ### Streams that end -/

theorem Session.call_of_step {lib : OpenSsl} {b : Backend} {s : Session} {ev : Ev} {e' : Endpoint} {x q : Octets}
    (answers : s.stream.answers ev = true) (stepped : AegisTunnel.step lib b s.endpoint ev = some e')
    (recvd : e'.log.recvd = s.endpoint.log.recvd ++ x) (queued : s.stream.queued = x ++ q) :
    s.step lib b (.call ev) = some
      ⟨e', { s.stream with queued := q }, if e'.pc.returnsZero then some (endedBy b s.endpoint ev) else none⟩ := by
  have front : x.isPrefixOf (x ++ q) = true := List.isPrefixOf_iff_prefix.mpr (List.prefix_append x q)
  simp only [Session.step, onCall, answers, stepped, if_true, Option.bind_some, recvd, List.drop_left, queued, front]

/-- A call that receives nothing, and after which the tunnel goes on. -/
theorem Session.quiet_call {lib : OpenSsl} {b : Backend} {e e' : Endpoint} {stream : PeerStream} {ev : Ev}
    (answers : stream.answers ev = true) (stepped : AegisTunnel.step lib b e ev = some e')
    (recvd : e'.log.recvd = e.log.recvd) (goesOn : e'.pc.returnsZero = false) :
    Session.step lib b ⟨e, stream, none⟩ (.call ev) = some ⟨e', stream, none⟩ := by
  have taken := call_of_step (s := ⟨e, stream, none⟩) (x := []) answers stepped (recvd.trans (List.append_nil _).symm) rfl
  rw [goesOn] at taken
  exact taken

theorem Session.meets_of_untested {b : Backend} {s : Session} {ev : Ev} (noRecv : ∀ k, ev ≠ .recv k)
    (keeps : KeepsBytes b s.endpoint ev) (none_ : tested b s.endpoint ev = none) : s.Meets b (.call ev) :=
  ⟨noRecv .again, fun end_ => absurd end_ (noRecv .eof), keeps, fun rev at_ => by cases none_.symm.trans at_⟩

/-- No error bits are reported. -/
theorem Session.meets_extract {b : Backend} {s : Session} (at_ : s.endpoint.pc = .extract encryptedReady) :
    s.Meets b (.call .tick) := by
  refine ⟨nofun, nofun, trivial, fun rev h _ err => ?_⟩
  unfold tested at h
  simp only [at_] at h
  split at h
  · cases h
    cases err
  · cases h

/-- The server when it has taken a frame off its reader. -/
def serverAt (fr : FrameReader) (pc : Pc) (log : Log) : Endpoint :=
  ⟨{ Mode.server.tun bobKeys 0 with decNonce := 2 }, fr, 0, 0, pc, log⟩

/-- It finds nothing more to take, and the end of the stream in the next round. -/
theorem server_finishes {fr : FrameReader} (rest : fr.rest = []) (still : fr.eof = false) (log : Log) (bytes : Octets) :
    ∃ s, Machine.Steps (Session.step aliceBobSsl .pureC) (fun s ev _ => s.Meets .pureC ev)
        ⟨serverAt fr (.extract encryptedReady) log, ⟨bytes, [], true⟩, none⟩ s ∧
      s.ended = some .encrypted ∧ s.endpoint.log.wrote = log.wrote := by
  have more : step aliceBobSsl .pureC (serverAt fr (.extract encryptedReady) log) .tick =
      some (serverAt fr .rekeyTime log) := by
    have none_ : wireFraming.cut fr.rest = none := by rw [rest]; rfl
    simp only [step, serverAt, extractStep, tryNext_of_cut_none none_]
    rfl
  have early : step aliceBobSsl .pureC (serverAt fr .rekeyTime log) (.time 0) = some (serverAt fr .head log) := by
    have short : ¬ (0 - 0 : Int64) ≥ (Mode.server.tun bobKeys 0).rekeySec := by decide
    exact congrArg (fun pc => some (serverAt fr pc log)) (if_neg short)
  have ends : step aliceBobSsl .pureC (serverAt fr (.fill encryptedReady) log) (.recv .eof) =
      some (serverAt { fr.compact with eof := true } (.returned 0) (log.recv [])) := by
    have space : fr.compact.space = frameMaxWire := by rw [FrameReader.space, FrameReader.buf_compact, rest]; rfl
    simp only [step, serverAt, fillStep, FrameReader.recvs, FrameReader.fillBuffer, still, space]
    rfl
  exact ⟨_, .head (Session.quiet_call rfl more rfl rfl) (Session.meets_extract rfl) <|
    .head (Session.quiet_call rfl early rfl rfl) (Session.meets_of_untested (by simp) trivial rfl) <|
    .head (e := .call (.running true)) (Session.quiet_call rfl rfl rfl rfl) (Session.meets_of_untested (by simp) trivial rfl) <|
    .head (e := .call (.poll (.ready encryptedReady))) (Session.quiet_call rfl rfl rfl rfl)
      (Session.meets_of_untested (by simp) trivial rfl) <|
    .head (Session.call_of_step rfl ends rfl rfl) ⟨by simp, fun _ => rest, trivial, fun _ h => by cases h⟩ .refl, rfl, rfl⟩

/-- The client sends a frame and closes the connection; the server writes the byte of the frame before it finds the
    end. -/
theorem clean_end_complete_byte :
    ∃ e s, Mode.server.start .pureC bobKeys 0 = some e ∧
      Machine.Steps (Session.step aliceBobSsl .pureC) (fun s ev _ => s.Meets .pureC ev)
        (Session.start e byteWire true) s ∧
      s.ended = some .encrypted ∧ s.endpoint.log.wrote = [7] ∧
      ((∃ g ∈ s.endpoint.log.accepted, g.frame.type = frameClose) ∨ s.Complete) := by
  have built : frameBuild .pureC frameData flagNone [7] 1 aliceKeys.encKey = some byteWire := rfl
  have length := (length_frameBuild built).2
  have room : (1 : UInt64) < nonceOverflowLimit - nonceRekeyMargin := by decide
  obtain ⟨e, start⟩ : ∃ e, Mode.server.start .pureC bobKeys 0 = some e := ⟨_, rfl⟩
  obtain ⟨log, rfl, -, -, -, none_⟩ := fresh_start start
  obtain ⟨fr, rest, eof, fill⟩ := step_fill aliceBobSsl .pureC
    (e := ⟨Mode.server.tun bobKeys 0, frameReaderInit, 0, 0, .fill encryptedReady, log⟩) rfl rfl rfl
    (frameBuild_ne_nil built) (length.trans_le (by decide))
  obtain ⟨fr', rest', eof', extract⟩ := step_extract aliceBobSsl .pureC
    (e := ⟨Mode.server.tun bobKeys 0, fr, 0, 0, .extract encryptedReady, log.recv byteWire⟩)
    (f := ⟨frameData, flagNone, [7]⟩) rfl room (rest.trans (List.append_nil _).symm) built
  obtain ⟨s, finish, ended, wrote⟩ := server_finishes rest' (eof'.trans eof)
    (((log.recv byteWire).accept ⟨aliceKeys.encKey, 1, ⟨frameData, flagNone, [7]⟩, byteWire⟩).write [7]) byteWire
  have run : Machine.Steps (Session.step aliceBobSsl .pureC) (fun s ev _ => s.Meets .pureC ev)
      (Session.start (tunnelStart (Mode.server.tun bobKeys 0) log) byteWire true) s :=
    .head (e := .call (.time 0)) (Session.quiet_call rfl rfl rfl rfl) (Session.meets_of_untested (by simp) trivial rfl) <|
    .head (e := .call (.time 0)) (Session.quiet_call rfl rfl rfl rfl) (Session.meets_of_untested (by simp) trivial rfl) <|
    .head (e := .call (.running true)) (Session.quiet_call rfl rfl rfl rfl) (Session.meets_of_untested (by simp) trivial rfl) <|
    .head (e := .call (.poll (.ready encryptedReady))) (Session.quiet_call rfl rfl rfl rfl)
      (Session.meets_of_untested (by simp) trivial rfl) <|
    .head (Session.call_of_step rfl fill rfl (List.append_nil _).symm) ⟨nofun, nofun, trivial, nofun⟩ <|
    .head (Session.quiet_call rfl extract rfl rfl) (Session.meets_extract rfl) <|
    .head (e := .call (.write (.took 1))) (Session.quiet_call rfl rfl rfl rfl)
      (Session.meets_of_untested (by simp) trivial rfl) finish
  exact ⟨_, s, start, run, ended, wrote.trans (congrArg (· ++ [7]) none_),
    clean_end_complete aliceBobSsl .pureC .server bobKeys 0 byteWire true _ s start run ended⟩

/-- The tunnel has returned 0 on account of the encrypted side, without a CLOSE frame and without the whole stream. -/
def Session.EndedEarly (s : Session) : Prop :=
  s.ended = some .encrypted ∧ ¬ ((∃ g ∈ s.endpoint.log.accepted, g.frame.type = frameClose) ∨ s.Complete)

/-- The calls up to the first answer of `recv`, which `poll` has announced. -/
def firstRecv (k : Offer) : List SessionEv :=
  [.call (.time 0), .call (.time 0), .call (.running true), .call (.poll (.ready encryptedReady)), .call (.recv k)]

/-- The end of the stream is found in the next round. -/
def restAndEnd (k : Offer) : List SessionEv :=
  firstRecv k ++ [.call .tick, .call (.time 0), .call (.running true), .call (.poll (.ready encryptedReady)),
    .call (.recv .eof)]

/-- `poll` reports a hang-up together with the data, of which `recv` takes one byte. -/
def hangUp : List SessionEv :=
  [.call (.time 0), .call (.time 0), .call (.running true), .call (.poll (.ready ⟨false, true, false, true⟩)),
    .call (.recv (.data 1 [])), .call .tick]

/-- Ended on account of the encrypted side, without any frame, and not drained. -/
def Session.cutShort (s : Session) : Bool :=
  s.ended == some .encrypted && s.endpoint.log.accepted.isEmpty &&
    !(s.stream.closed && s.stream.queued.isEmpty && s.endpoint.fr.rest.isEmpty)

theorem Session.endedEarly_of_cutShort {s : Session} (h : s.cutShort = true) : s.EndedEarly := by
  simp only [cutShort, Bool.and_eq_true, beq_iff_eq, List.isEmpty_iff] at h
  obtain ⟨⟨ended, none_⟩, left⟩ := h
  refine ⟨ended, ?_⟩
  rintro (⟨g, member, -⟩ | complete)
  · rw [none_] at member
    cases member
  · obtain ⟨closed, queued, rest⟩ := complete.drained
    rw [closed, queued, rest] at left
    cases left

/-- A temporary lack of data ends the tunnel while the peer still sends, the end of the stream within a frame ends it
    without an error, and so does a hang-up with data still queued. -/
theorem clean_end_incomplete :
    ∃ e, Mode.server.start .pureC bobKeys 0 = some e ∧
      (∃ s, Machine.Steps (Session.step aliceBobSsl .pureC) (fun _ _ _ => True) (Session.start e [] false) s ∧
        s.EndedEarly ∧ s.stream.closed = false) ∧
      (∃ s, Machine.Steps (Session.step aliceBobSsl .pureC) (fun _ _ _ => True) (Session.start e [1, 0, 0] true) s ∧
        s.EndedEarly ∧ s.endpoint.fr.rest = [1, 0, 0]) ∧
      ∃ s, Machine.Steps (Session.step aliceBobSsl .pureC) (fun _ _ _ => True) (Session.start e [1, 0, 0] true) s ∧
        s.EndedEarly ∧ s.stream.queued = [0, 0] := by
  refine ⟨_, rfl, ⟨_, .of_exec (fun _ _ _ => true) (firstRecv .again) (fun _ _ => trivial) rfl, ?_, rfl⟩,
    ⟨_, .of_exec (fun _ _ _ => true) (restAndEnd (.data 1 [0, 0])) (fun _ _ => trivial) rfl, ?_, rfl⟩,
    ⟨_, .of_exec (fun _ _ _ => true) hangUp (fun _ _ => trivial) rfl, ?_, rfl⟩⟩
  all_goals exact Session.endedEarly_of_cutShort rfl

end AegisTunnel
