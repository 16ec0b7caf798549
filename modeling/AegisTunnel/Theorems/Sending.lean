import AegisTunnel.Theorems.Integrity

/-! What `tunnel_run` hands to the encrypted descriptor, frame by frame: all that is read from the plaintext
    descriptor is among it as long as the counter has room whenever something is read. -/

namespace AegisTunnel
open Octets

/-! ### Frames in progress -/

def Rekey.pending (r : Rekey) : Octets :=
  match r.pc with
  | .send _ pending _ => pending
  | _ => []

def RekeyRes.pending : RekeyRes → Octets
  | .running r => r.pending
  | _ => []

/-- The bytes of the frame in progress that are still to be sent. -/
def Pc.pending : Pc → Octets
  | .sendData pending _ _ => pending
  | .sendClose wire => wire
  | .sendKa wire => wire
  | .respond r _ => r.pending
  | .initiate r => r.pending
  | _ => []

def Pc.sendsData : Pc → Bool
  | .sendData .. => true
  | _ => false

def Pc.isReturned : Pc → Bool
  | .returned _ => true
  | _ => false

theorem Pc.Quiet.pending {pc : Pc} (h : pc.Quiet) : pc.pending = [] := by
  cases pc <;> first | rfl | exact h.elim

theorem Pc.Calm.pending {tun : Tun} {pc : Pc} (h : pc.Calm tun) : pc.pending = [] := by
  cases pc with
  | initiate r => obtain rfl : r = Rekey.start true tun.encNonce := h; rfl
  | sendData | sendClose | sendKa | respond => exact h.elim
  | _ => rfl

theorem Pc.pending_of_rekey {pc : Pc} {r : Rekey} (h : pc.rekey? = some r) :
    pc.pending = r.pending ∧ pc.sendsData = false := by
  cases pc with
  | respond | initiate => cases h; exact ⟨rfl, rfl⟩
  | _ => cases h

theorem pending_framePc (n : UInt64) (f : Frame) (rev : Revents) : (framePc n f rev).pending = [] := by
  unfold framePc
  split_ifs <;> rfl

/-! ### What a step hands over -/

section
variable {lib : OpenSsl} {b : Backend} {psk : Octets} {keys : SessionKeys} {r : Rekey} {log log' : Log} {ev : Ev}
  {res : RekeyRes}

theorem RekeyEffect.unsent (h : RekeyEffect lib b psk keys r log ev .failed log') :
    log'.built = log.built ∧ log'.sent = log.sent := by
  cases h with
  | noKeyPair | recvFailed | mixFailed => exact ⟨rfl, rfl⟩
  -- `send_all` fails in a round that sends nothing.
  | @sendFailed own pending peer k at_ round =>
    refine ⟨rfl, ?_⟩
    cases k with
    | took n =>
      cases n with
      | zero => exact List.append_nil _
      | succ n => cases round
    | eintr | again | error => exact List.append_nil _

theorem RekeyEffect.hands (h : RekeyEffect lib b psk keys r log ev res log') :
    (∃ f : FrameRec, r.pending = [] ∧ log'.built = log.built ++ [f] ∧ log'.sent = log.sent ∧ res.pending = f.wire ∧
      f.Genuine ∧ f.frame.type = frameRekey) ∨
    (∃ y, log'.built = log.built ∧ log'.sent = log.sent ++ y ∧ y ++ res.pending = r.pending) ∨
    log'.built = log.built ∧ log'.sent = log.sent ∧ res = .failed := by
  have same : log.sent = log.sent ++ [] := (List.append_nil _).symm
  have none_ : ∀ {pc}, r.pc = pc → (∀ own pending peer, pc ≠ .send own pending peer) → r.pending = [] := by
    intro pc at_ other
    rw [Rekey.pending, at_]
    cases pc with
    | send own pending peer => exact absurd rfl (other own pending peer)
    | _ => rfl
  have send_ : ∀ {own pending peer}, r.pc = .send own pending peer → r.pending = pending := by
    intro own pending peer at_
    rw [Rekey.pending, at_]
  cases h with
  | offer at_ side built => exact .inl ⟨_, none_ at_ (by simp), rfl, rfl, rfl, ⟨_, built⟩, rfl⟩
  | answer at_ side bytes enough parsed built => exact .inl ⟨_, none_ at_ (by simp), rfl, rfl, rfl, ⟨_, built⟩, rfl⟩
  | listen at_ side => exact .inr (.inl ⟨[], rfl, same, (none_ at_ (by simp)).symm⟩)
  | receiving at_ more => exact .inr (.inl ⟨[], rfl, same, (none_ at_ (by simp)).symm⟩)
  | answered at_ side bytes enough parsed => exact .inr (.inl ⟨[], rfl, same, (none_ at_ (by simp)).symm⟩)
  | noKeyPair | recvFailed | mixFailed => exact .inr (.inr ⟨rfl, rfl, rfl⟩)
  | mixed at_ derived => exact .inr (.inl ⟨[], rfl, same, (none_ at_ (by simp)).symm⟩)
  | sending at_ round more => exact .inr (.inl ⟨_, rfl, rfl, round.trans (send_ at_).symm⟩)
  | sentOffer at_ round => exact .inr (.inl ⟨_, rfl, rfl, (List.append_nil _).trans (round.trans (send_ at_).symm)⟩)
  | sentAnswer at_ round => exact .inr (.inl ⟨_, rfl, rfl, (List.append_nil _).trans (round.trans (send_ at_).symm)⟩)
  | sendFailed at_ round =>
    have effect : RekeyEffect lib b psk keys r log _ .failed _ := .sendFailed at_ round
    exact .inr (.inr ⟨effect.unsent.1, effect.unsent.2, rfl⟩)

end

/-- Where a frame is given up after the part `y`: on return, with the only `send` of a keepalive, or when a
    re-key fails. -/
inductive Cut (lib : OpenSsl) (b : Backend) (e : Endpoint) (ev : Ev) (e' : Endpoint) (y : Octets) : Prop where
  | returned (ends : e'.pc.isReturned = true)
  | keepalive (wire : Octets) (k : Sent) (at_ : e.pc = .sendKa wire) (event : ev = .send k) (bytes : k.bytes wire = y)
  | rekey (r : Rekey) (log : Log) (at_ : e.pc.rekey? = some r)
      (failed : rekeyStep lib b e.tun.psk e.tun.keys r e.log ev = some (.failed, log)) (unsent : y = [])

/-- What a step does to the frame in progress: it builds one, it sends a part of one, or it gives one up. -/
inductive Hands (lib : OpenSsl) (b : Backend) (e : Endpoint) (ev : Ev) (e' : Endpoint) : Prop where
  | build (r : FrameRec) (idle : e.pc.pending = []) (built : e'.log.built = e.log.built ++ [r])
      (sent : e'.log.sent = e.log.sent) (next : e'.pc.pending = r.wire) (genuine : r.Genuine)
      (data : r.frame.type = frameData → e'.pc.sendsData = true)
  | send (y : Octets) (built : e'.log.built = e.log.built) (sent : e'.log.sent = e.log.sent ++ y)
      (round : y ++ e'.pc.pending = e.pc.pending)
      (data : e'.pc.pending ≠ [] → e.pc.sendsData = true → e'.pc.sendsData = true)
  | cut (y : Octets) (built : e'.log.built = e.log.built) (sent : e'.log.sent = e.log.sent ++ y)
      (part : y <+: e.pc.pending) (ended : e'.pc.pending = []) (why : Cut lib b e ev e' y)

section
variable {lib : OpenSsl} {b : Backend} {e e' : Endpoint} {ev : Ev}

theorem Hands.stay (built : e'.log.built = e.log.built) (sent : e'.log.sent = e.log.sent) (idle : e.pc.pending = [])
    (idle' : e'.pc.pending = []) : Hands lib b e ev e' :=
  .send [] built (sent.trans (List.append_nil _).symm) (idle'.trans idle.symm) fun some_ => absurd idle' some_

theorem Hands.rekey {r : Rekey} {res : RekeyRes} {log : Log} (at_ : e.pc.rekey? = some r)
    (taken : rekeyStep lib b e.tun.psk e.tun.keys r e.log ev = some (res, log)) (logged : e'.log = log)
    (pending' : e'.pc.pending = res.pending) : Hands lib b e ev e' := by
  have here := Pc.pending_of_rekey at_
  subst logged
  rcases (rekeyStep_effect taken).hands with ⟨f, idle, built, sent, next, genuine, type⟩ | ⟨y, built, sent, round⟩ |
      ⟨built, sent, rfl⟩
  · exact .build f (here.1.trans idle) built sent (pending'.trans next) genuine fun data =>
      absurd (data.symm.trans type) (by decide)
  · refine .send y built sent (by rw [here.1, pending', round]) fun _ data => ?_
    rw [here.2] at data
    cases data
  · exact .cut [] built (sent.trans (List.append_nil _).symm) List.nil_prefix pending' (.rekey r _ at_ taken rfl)

theorem Effect.hands (h : Effect lib b e ev e') : Hands lib b e ev e' := by
  cases h with
  | move at_ goes => exact .stay rfl rfl at_.pending goes.pending
  | lost d at_ full => exact .stay rfl rfl at_.pending rfl
  | data at_ room built => exact .build _ at_.pending rfl rfl rfl ⟨_, built⟩ fun _ => rfl
  | close at_ room built =>
    exact .build _ at_.pending rfl rfl rfl ⟨_, built⟩ fun data => absurd data (by decide : frameClose ≠ frameData)
  | keepalive at_ built =>
    exact .build _ (by rw [at_]; rfl) rfl rfl rfl ⟨_, built⟩ fun data => absurd data (by decide : frameKeepalive ≠ frameData)
  | @sent k pending rest drained rev pc at_ round goes =>
    have left : pc.pending = rest ∧ (rest ≠ [] → pc.sendsData = true) := by
      rcases goes with ⟨rfl, calm⟩ | rfl
      · exact ⟨calm.pending, fun some_ => absurd rfl some_⟩
      · exact ⟨rfl, fun _ => rfl⟩
    refine .send _ rfl rfl ?_ fun some_ _ => left.2 (left.1 ▸ some_)
    rw [at_]
    exact (congrArg (k.bytes pending ++ ·) left.1).trans round
  | @sendFailed k pending drained rev at_ =>
    exact .cut _ rfl rfl (by rw [at_]; exact prefix_bytes k pending) rfl (.returned rfl)
  | @sentClose k wire at_ => exact .cut _ rfl rfl (by rw [at_]; exact prefix_bytes k wire) rfl (.returned rfl)
  | @sentKa k wire at_ =>
    exact .cut _ rfl rfl (by rw [at_]; exact prefix_bytes k wire) (calm_pressurePc e.tun).pending
      (.keepalive wire k at_ rfl rfl)
  | filled at_ rest goes =>
    refine .stay rfl rfl (by rw [at_]; rfl) ?_
    rcases goes with rfl | ⟨_, rfl⟩ <;> rfl
  | accepted at_ room cut parsed => exact .stay rfl rfl (by rw [at_]; rfl) (pending_framePc ..)
  | wrote at_ round goes =>
    refine .stay rfl rfl (by rw [at_]; rfl) ?_
    rcases goes with ⟨_, rfl⟩ | rfl <;> rfl
  | writeFailed at_ => exact .stay rfl rfl (by rw [at_]; rfl) rfl
  | @respond _ r rev res at_ h =>
    obtain ⟨res, log⟩ := res
    exact .rekey (by rw [at_]; rfl) h (by cases res <;> rfl) (by cases res <;> rfl)
  | @initiate _ r res at_ h =>
    obtain ⟨res, log⟩ := res
    exact .rekey (by rw [at_]; rfl) h (by cases res <;> rfl) (by cases res <;> rfl)

end

theorem isReturned_of_step {lib : OpenSsl} {b : Backend} {e e' : Endpoint} {ev : Ev} (h : step lib b e ev = some e') :
    e.pc.isReturned = false := by
  cases at_ : e.pc with
  | returned ret => exact absurd at_ (running_of_step h ret)
  | _ => rfl

/-! ### Frames and their parts on the wire -/

/-- Each frame after the first `k` with the part of it that has been sent or is being sent: all of it, if the
    frame carries data. -/
structure HandedOver (k : Nat) (e : Endpoint) (parts : List (FrameRec × Octets)) : Prop where
  size : k ≤ e.log.built.length
  frames : parts.map Prod.fst = e.log.built.drop k
  bytes : (parts.map Prod.snd).flatten = e.log.sent ++ e.pc.pending
  part : ∀ p ∈ parts, p.2 <+: p.1.wire ∧ (p.1.frame.type = frameData → p.2 = p.1.wire)
  current : e.pc.pending ≠ [] → ∃ init r, parts = init ++ [(r, r.wire)] ∧ e.pc.pending <:+ r.wire ∧
    (r.frame.type = frameData → e.pc.sendsData = true)

namespace HandedOver
variable {k : Nat} {e e' : Endpoint} {parts : List (FrameRec × Octets)}

theorem start (idle : e.pc.pending = []) (unsent : e.log.sent = []) : HandedOver e.log.built.length e [] := by
  refine ⟨le_refl _, ?_, ?_, fun p member => absurd member List.not_mem_nil, fun some_ => absurd idle some_⟩
  · rw [List.drop_length]; rfl
  · rw [idle, unsent]; rfl

theorem build {r : FrameRec} (inv : HandedOver k e parts) (idle : e.pc.pending = []) (built : e'.log.built = e.log.built ++ [r])
    (sent : e'.log.sent = e.log.sent) (next : e'.pc.pending = r.wire)
    (data : r.frame.type = frameData → e'.pc.sendsData = true) : HandedOver k e' (parts ++ [(r, r.wire)]) := by
  refine ⟨?_, ?_, ?_, fun p member => ?_, fun _ => ⟨parts, r, rfl, ?_, data⟩⟩
  · rw [built, List.length_append]
    exact Nat.le_add_right_of_le inv.size
  · rw [built, List.drop_append_of_le_length inv.size, List.map_append, inv.frames]
    rfl
  · have bytes := inv.bytes
    rw [idle, List.append_nil] at bytes
    rw [List.map_append, List.flatten_append, bytes, sent, next]
    simp
  · rcases List.mem_append.mp member with before | new
    · exact inv.part p before
    · obtain rfl := List.mem_singleton.mp new
      exact ⟨List.prefix_rfl, fun _ => rfl⟩
  · rw [next]

theorem send {y : Octets} (inv : HandedOver k e parts) (built : e'.log.built = e.log.built)
    (sent : e'.log.sent = e.log.sent ++ y) (round : y ++ e'.pc.pending = e.pc.pending)
    (data : e'.pc.pending ≠ [] → e.pc.sendsData = true → e'.pc.sendsData = true) : HandedOver k e' parts := by
  refine ⟨built ▸ inv.size, built ▸ inv.frames, ?_, inv.part, fun some_ => ?_⟩
  · rw [inv.bytes, sent, List.append_assoc, round]
  · have some' : e.pc.pending ≠ [] := by
      rw [← round]
      exact List.append_ne_nil_of_right_ne_nil y some_
    obtain ⟨init, r, rfl, suffix_, kind⟩ := inv.current some'
    have rest : e'.pc.pending <:+ e.pc.pending := ⟨y, round⟩
    exact ⟨init, r, rfl, rest.trans suffix_, fun type => data some_ (kind type)⟩

theorem cut {y : Octets} (inv : HandedOver k e parts) (built : e'.log.built = e.log.built)
    (sent : e'.log.sent = e.log.sent ++ y) (part : y <+: e.pc.pending) (ended : e'.pc.pending = [])
    (plain : e.pc.sendsData = false) : ∃ parts', HandedOver k e' parts' := by
  by_cases some_ : e.pc.pending = []
  -- Nothing was to be sent.
  · rw [some_, List.prefix_nil] at part
    subst part
    exact ⟨parts, inv.send built sent (by rw [ended, some_]; rfl) fun some' => absurd ended some'⟩
  · obtain ⟨init, r, rfl, ⟨x, whole⟩, kind⟩ := inv.current some_
    obtain ⟨rest, split⟩ := part
    have bytes := inv.bytes
    rw [List.map_append, List.flatten_append, List.map_singleton, List.flatten_singleton, ← whole, ← List.append_assoc] at bytes
    have before := List.append_cancel_right bytes
    refine ⟨init ++ [(r, x ++ y)], built ▸ inv.size, ?_, ?_, fun p member => ?_, fun some' => absurd ended some'⟩
    · rw [built, ← inv.frames, List.map_append, List.map_append]
      rfl
    · rw [List.map_append, List.flatten_append, List.map_singleton, List.flatten_singleton, ended, List.append_nil, sent,
        ← before, List.append_assoc]
    · rcases List.mem_append.mp member with before | new
      · exact inv.part p (List.mem_append_left _ before)
      · obtain rfl := List.mem_singleton.mp new
        refine ⟨⟨rest, ?_⟩, fun type => ?_⟩
        · rw [List.append_assoc, split, whole]
        · rw [kind type] at plain
          cases plain

theorem step {lib : OpenSsl} {b : Backend} {ev : Ev} (inv : HandedOver k e parts) (h : Hands lib b e ev e')
    (running : e'.pc.isReturned = false) : ∃ parts', HandedOver k e' parts' := by
  cases h with
  | build r idle built sent next genuine data => exact ⟨_, inv.build idle built sent next data⟩
  | send y built sent round data => exact ⟨_, inv.send built sent round data⟩
  | cut y built sent part ended why =>
    refine inv.cut built sent part ended ?_
    -- Only a return gives up a DATA frame.
    cases why with
    | returned ends => rw [ends] at running; cases running
    | keepalive wire k at_ event bytes => rw [at_]; rfl
    | rekey r log at_ failed unsent => exact (Pc.pending_of_rekey at_).2

end HandedOver

/-! ### What is read -/

def FrameRec.data (r : FrameRec) : Octets := if r.frame.type = frameData then r.frame.payload else []

/-- What a `read` of the plaintext descriptor returns. -/
def Ev.bytesRead : Ev → Octets
  | .read k => k.taken frameMaxPayload
  | _ => []

section
variable {lib : OpenSsl} {b : Backend} {e e' : Endpoint} {ev : Ev}

theorem RekeyEffect.readPt_eq {psk : Octets} {keys : SessionKeys} {r : Rekey} {log log' : Log} {res : RekeyRes}
    (h : RekeyEffect lib b psk keys r log ev res log') : log'.readPt = log.readPt := by
  cases h <;> rfl

/-- The step reads what its frames carry, with room in the counter if that is something. -/
def Carries (e e' : Endpoint) : Prop :=
  ∃ rs : List FrameRec, e'.log.built = e.log.built ++ rs ∧ e'.log.readPt = e.log.readPt ++ rs.flatMap FrameRec.data ∧
    (rs.flatMap FrameRec.data ≠ [] → e.tun.encNonce < nonceOverflowLimit)

theorem Carries.nothing (built : e'.log.built = e.log.built) (read : e'.log.readPt = e.log.readPt) : Carries e e' :=
  ⟨[], built.trans (List.append_nil _).symm, read.trans (List.append_nil _).symm, fun some_ => absurd rfl some_⟩

theorem Carries.rekey {r : Rekey} {res : RekeyRes} {log : Log} (h : RekeyEffect lib b e.tun.psk e.tun.keys r e.log ev res log)
    (logged : e'.log = log) : Carries e e' := by
  subst logged
  rcases h.built_cases with same | ⟨own, ctr, wire, r', _, built⟩
  · exact .nothing same h.readPt_eq
  · exact ⟨_, built, h.readPt_eq.trans (List.append_nil _).symm, fun some_ => absurd rfl some_⟩

/-- Only at the limit of the counter is something read that no frame carries. -/
theorem Effect.reads (h : Effect lib b e ev e') :
    Carries e e' ∨ e'.log.built = e.log.built ∧ nonceOverflowLimit ≤ e.tun.encNonce := by
  cases h with
  | lost d at_ full => exact .inr ⟨rfl, full⟩
  | data at_ room built =>
    exact .inl ⟨[_], rfl, congrArg (e.log.readPt ++ ·) (List.append_nil _).symm, fun _ => room⟩
  | close at_ room built => exact .inl ⟨[_], rfl, (List.append_nil _).symm, fun _ => room⟩
  | keepalive at_ built => exact .inl ⟨[_], rfl, (List.append_nil _).symm, fun some_ => absurd rfl some_⟩
  | @respond _ r rev res at_ h =>
    obtain ⟨res, log⟩ := res
    exact .inl (.rekey (rekeyStep_effect h) (by cases res <;> rfl))
  | @initiate _ r res at_ h =>
    obtain ⟨res, log⟩ := res
    exact .inl (.rekey (rekeyStep_effect h) (by cases res <;> rfl))
  | move | sent | sendFailed | sentClose | sentKa | filled | accepted | wrote | writeFailed =>
    exact .inl (.nothing rfl rfl)

theorem readPt_build (b : Backend) (e : Endpoint) (type : UInt8) (d : Octets) (pc : Octets → Pc) (failed : Pc) :
    (e.build b type d pc failed).log.readPt = e.log.readPt := by
  unfold Endpoint.build
  split <;> rfl

theorem readPt_readStep (b : Backend) (e : Endpoint) (drained : Nat) (rev : Revents) (k : Offer) :
    (readStep b e drained rev k).log.readPt = e.log.readPt ++ k.taken frameMaxPayload := by
  have nothing : e.log.readPt = e.log.readPt ++ [] := (List.append_nil _).symm
  cases k with
  | data x xs =>
    simp only [readStep, sendDataStep]
    split
    · rfl
    · exact readPt_build ..
  | eof =>
    simp only [readStep]
    split
    · exact (readPt_build ..).trans nothing
    · exact nothing
  | eintr | again | error => exact nothing

/-- A step reads what its event returns. -/
theorem readPt_step (h : step lib b e ev = some e') : e'.log.readPt = e.log.readPt ++ ev.bytesRead := by
  have nothing : ∀ {l : Octets}, l = e.log.readPt → l = e.log.readPt ++ [] := fun same => same.trans (List.append_nil _).symm
  have rekey : ∀ {r res log}, rekeyStep lib b e.tun.psk e.tun.keys r e.log ev = some (res, log) →
      log.readPt = e.log.readPt ++ ev.bytesRead := by
    intro r res log taken
    have effect := rekeyStep_effect taken
    rw [effect.readPt_eq]
    cases effect <;> exact nothing rfl
  unfold step at h
  split at h
  case h_8 k at_ => exact Option.some.inj h ▸ readPt_readStep b e _ _ k
  case h_14 at_ =>
    obtain ⟨⟨res, log⟩, taken, rfl⟩ := Option.map_eq_some_iff.mp h
    cases res <;> exact rekey taken
  case h_18 at_ =>
    obtain ⟨⟨res, log⟩, taken, rfl⟩ := Option.map_eq_some_iff.mp h
    cases res <;> exact rekey taken
  case h_20 => cases h
  -- The places with a step function of their own; elsewhere the log stays as it is.
  case h_9 k at_ =>
    refine Option.some.inj h ▸ nothing ?_
    unfold sendDataRound
    split <;> rfl
  case h_11 k at_ =>
    refine Option.some.inj h ▸ nothing ?_
    unfold fillStep
    split <;> dsimp only <;> split <;> rfl
  case h_12 at_ =>
    refine Option.some.inj h ▸ nothing ?_
    unfold extractStep
    split
    · rfl
    · split
      · rfl
      · split <;> rfl
  case h_13 k at_ =>
    refine Option.some.inj h ▸ nothing ?_
    unfold writeStep
    split <;> rfl
  case h_15 now at_ =>
    refine Option.some.inj h ▸ nothing ?_
    unfold keepaliveStep
    split
    · exact readPt_build ..
    · rfl
  all_goals exact Option.some.inj h ▸ nothing rfl

end

/-! ### All that is read goes out -/

/-- Where bytes are read, the counter has room for their frame. -/
def RoomForRead (e : Endpoint) (ev : Ev) : Prop := ev.bytesRead ≠ [] → e.tun.encNonce < nonceOverflowLimit

instance (e : Endpoint) (ev : Ev) : Decidable (RoomForRead e ev) :=
  inferInstanceAs (Decidable (ev.bytesRead ≠ [] → e.tun.encNonce < nonceOverflowLimit))

/-- What has been read is what the frames after the first `k` carry. -/
def Forwarded (k : Nat) (e : Endpoint) : Prop := e.log.readPt = (e.log.built.drop k).flatMap FrameRec.data

section
variable {lib : OpenSsl} {b : Backend} {e e' : Endpoint} {ev : Ev} {k : Nat}

theorem Forwarded.keep (inv : Forwarded k e) (size : k ≤ e.log.built.length) (taken : step lib b e ev = some e')
    (room : RoomForRead e ev) : Forwarded k e' := by
  rcases (step_effect taken).reads with ⟨rs, built, read, _⟩ | ⟨built, full⟩
  · rw [Forwarded, built, read, List.drop_append_of_le_length size, List.flatMap_append, inv]
  · have none_ : ev.bytesRead = [] := by
      by_contra some_
      exact UInt64.not_lt.mpr full (room some_)
    rw [Forwarded, built, readPt_step taken, none_, List.append_nil, inv]

/-- The room is needed: without it what is read stays behind. -/
theorem Forwarded.room (inv : Forwarded k e) (taken : step lib b e ev = some e') (inv' : Forwarded k e') :
    RoomForRead e ev := by
  intro some_
  have read := readPt_step taken
  rcases (step_effect taken).reads with ⟨rs, _, carried, room⟩ | ⟨built, _⟩
  · exact room (List.append_cancel_left (carried.symm.trans read) ▸ some_)
  · rw [Forwarded, built] at inv'
    exact absurd (List.append_right_eq_self.mp (read.symm.trans (inv'.trans inv.symm))) some_

end

theorem unsent_start {b : Backend} {e : Endpoint} {keys : SessionKeys} {keepalive : Int64} {m : Mode}
    (h : m.start b keys keepalive = some e) : e.pc.pending = [] ∧ e.log.sent = [] ∧ e.log.readPt = [] := by
  unfold Mode.start at h
  split at h
  · cases h
    exact ⟨rfl, rfl, rfl⟩
  · obtain ⟨wire, _, rfl⟩ := Option.map_eq_some_iff.mp h
    exact ⟨rfl, rfl, rfl⟩

/-- What holds along a run whose reads all have room. -/
structure SendInv (k : Nat) (e : Endpoint) : Prop where
  size : k ≤ e.log.built.length
  forwarded : Forwarded k e
  handed : e.pc.isReturned = false → ∃ parts, HandedOver k e parts

namespace SendInv
variable {lib : OpenSsl} {b : Backend} {e e' : Endpoint} {ev : Ev} {k : Nat}

theorem start {keys : SessionKeys} {keepalive : Int64} {m : Mode} (h : m.start b keys keepalive = some e) :
    SendInv e.log.built.length e := by
  obtain ⟨idle, unsent, unread⟩ := unsent_start h
  refine ⟨le_refl _, ?_, fun _ => ⟨[], .start idle unsent⟩⟩
  rw [Forwarded, List.drop_length, unread]
  rfl

theorem keep (inv : SendInv k e) (taken : step lib b e ev = some e') (room : RoomForRead e ev) : SendInv k e' := by
  obtain ⟨parts, handed⟩ := inv.handed (isReturned_of_step taken)
  refine ⟨?_, inv.forwarded.keep inv.size taken room, handed.step (step_effect taken).hands⟩
  rcases (step_effect taken).reads with ⟨rs, built, _⟩ | ⟨built, _⟩
  · rw [built, List.length_append]
    exact Nat.le_add_right_of_le inv.size
  · rw [built]
    exact inv.size

end SendInv

/-- In every run in which the counter has room whenever bytes are read, the bytes read are those that the DATA
    frames of the run carry, in this order, and as long as the call has not returned each of these frames has
    been handed over as a whole or is being sent. The next step keeps that exactly if it has this room too. -/
theorem plaintext_forwarded (lib : OpenSsl) (b : Backend) (m : Mode) (keys : SessionKeys) (keepalive : Int64)
    (e₀ e : Endpoint) (start : m.start b keys keepalive = some e₀)
    (run : Machine.Steps (step lib b) (fun e ev _ => RoomForRead e ev) e₀ e) :
    Forwarded e₀.log.built.length e ∧
      (e.pc.isReturned = false → ∃ parts, HandedOver e₀.log.built.length e parts) ∧
      ∀ ev e', step lib b e ev = some e' → (Forwarded e₀.log.built.length e' ↔ RoomForRead e ev) := by
  have inv : SendInv e₀.log.built.length e := run.invariant (.start start) fun inv taken room => inv.keep taken room
  exact ⟨inv.forwarded, inv.handed, fun ev e' taken =>
    ⟨inv.forwarded.room taken, inv.forwarded.keep inv.size taken⟩⟩

/-! ### Up to the limit of the counter -/

theorem RoomForRead.of_nil {e : Endpoint} {ev : Ev} (h : ev.bytesRead = []) : RoomForRead e ev :=
  fun some_ => absurd h some_

/-- Between two rounds of the loop, without keepalives and with the clock at 0. -/
structure AtRest (e : Endpoint) : Prop where
  pc : e.pc = .head
  keepalive : e.tun.keepaliveSec = 0
  rekey : e.tun.rekeySec = 120
  clock : e.lastRekey = 0

section
variable (lib : OpenSsl) (b : Backend) {e : Endpoint}

/-- The end of a round, with a re-key that gets no key pair where the counter asks for one. -/
theorem exists_round_end (pc : e.pc = pressurePc e.tun) (rekey : e.tun.rekeySec = 120) (clock : e.lastRekey = 0) :
    ∃ ev, ev.bytesRead = [] ∧ step lib b e ev = some { e with pc := .head } := by
  by_cases pressure : e.tun.encNonce ≥ nonceOverflowLimit - nonceRekeyMargin
  · have pc : e.pc = doRekey e.tun := pc.trans (if_pos pressure)
    exact ⟨.keygen none, rfl, by simp only [step, pc, doRekey]; rfl⟩
  · have room : e.tun.encNonce < nonceOverflowLimit := UInt64.lt_trans (UInt64.not_le.mp pressure) (by decide)
    have pc : e.pc = .rekeyTime := by
      rw [pc, pressurePc, if_neg pressure, rekey, if_pos ⟨by decide, room⟩]
    have early : ¬ (0 : Int64) - e.lastRekey ≥ e.tun.rekeySec := by
      rw [clock, rekey]
      decide
    exact ⟨.time 0, rfl, by simp only [step, pc, if_neg early]⟩

/-- One round of the loop, which forwards a byte. -/
theorem exists_round (rest : AtRest e) (room : e.tun.encNonce < nonceOverflowLimit) :
    ∃ e', Machine.Steps (step lib b) (fun e ev _ => RoomForRead e ev) e e' ∧ AtRest e' ∧ e'.tun = e.tun.counted := by
  obtain ⟨wire, built⟩ : ∃ wire, frameBuild b frameData flagNone [7] e.tun.encNonce e.tun.encKey = some wire :=
    ⟨_, frameBuild_of_le (by decide)⟩
  let log := (e.log.read [7]).build (e.tun.record frameData [7] wire)
  let e₂ : Endpoint := { e with pc := .read 0 plaintextReady }
  let e₃ : Endpoint := { e with tun := e.tun.counted, pc := .sendData wire 0 plaintextReady, log := log }
  let e₄ : Endpoint := { e₃ with pc := .read 1 plaintextReady, log := log.send wire }
  let e₅ : Endpoint := { e₄ with pc := pressurePc e.tun.counted }
  have taken₁ : step lib b e (.running true) = some { e with pc := .poll } := by simp only [step, rest.pc]
  have taken₂ : step lib b { e with pc := .poll } (.poll (.ready plaintextReady)) = some e₂ := rfl
  have taken₃ : step lib b e₂ (.read (.data 7 [])) = some e₃ := by
    show some (readStep b e₂ 0 plaintextReady (.data 7 [])) = some e₃
    have taken : ([7] : Octets).take frameMaxPayload = [7] := rfl
    simp only [readStep, taken, sendDataStep, Endpoint.build, e₂, if_neg (UInt64.not_le.mpr room), built]
    rfl
  have taken₄ : step lib b e₃ (.send (.took wire.length)) = some e₄ := by
    show some (sendDataRound e₃ wire 0 plaintextReady (.took wire.length)) = some e₄
    simp only [sendDataRound, writeAllRound, List.drop_length, Sent.bytes, List.take_length]
    rfl
  have taken₅ : step lib b e₄ (.read .again) = some e₅ := by
    show some (readStep b e₄ 1 plaintextReady .again) = some e₅
    have quiet : ¬ e.tun.counted.keepaliveSec > 0 := by
      show ¬ e.tun.keepaliveSec > 0
      rw [rest.keepalive]
      decide
    simp only [readStep, encryptedPc, errorsPc, keepalivePc, plaintextReady, e₄, e₃, quiet, false_and, if_false,
      Bool.false_eq_true]
    rfl
  obtain ⟨ev, noRead, taken₆⟩ := exists_round_end lib b (e := e₅) rfl rest.rekey rest.clock
  refine ⟨{ e₅ with pc := .head }, ?_, ⟨rfl, rest.keepalive, rest.rekey, rest.clock⟩, rfl⟩
  exact .head taken₁ (.of_nil rfl) (.head taken₂ (.of_nil rfl) (.head taken₃ (fun _ => room)
    (.head taken₄ (.of_nil rfl) (.head taken₅ (.of_nil rfl) (.head taken₆ (.of_nil noRead) .refl)))))

/-- Round after round, the counter comes up to the limit. -/
theorem exists_rounds (n : Nat) (rest : AtRest e) (below : e.tun.encNonce.toNat + n ≤ nonceOverflowLimit.toNat) :
    ∃ e', Machine.Steps (step lib b) (fun e ev _ => RoomForRead e ev) e e' ∧ AtRest e' ∧
      e'.tun.encNonce.toNat = e.tun.encNonce.toNat + n := by
  induction n with
  | zero => exact ⟨e, .refl, rest, rfl⟩
  | succ n ih =>
    obtain ⟨e', run, rest', count⟩ := ih (by omega)
    have room : e'.tun.encNonce < nonceOverflowLimit := by
      rw [UInt64.lt_iff_toNat_lt]
      omega
    obtain ⟨e'', round, rest'', tun⟩ := exists_round lib b rest' room
    refine ⟨e'', run.append round, rest'', ?_⟩
    rw [tun, Tun.counted, toNat_succ room, count]
    rfl

end

/-- The byte that is read when the counter is at its limit never goes out, and the loop goes on. -/
theorem plaintext_lost_at_limit :
    ∃ e₀ e, Mode.client.start .pureC aliceKeys 0 = some e₀ ∧
      Machine.Steps (step aliceBobSsl .pureC) (fun _ _ _ => True) e₀ e ∧ e.pc.isReturned = false ∧
      ¬ Forwarded e₀.log.built.length e := by
  obtain ⟨e₀, start⟩ : ∃ e₀, Mode.client.start .pureC aliceKeys 0 = some e₀ := ⟨_, rfl⟩
  obtain ⟨e₁, first, rest, one⟩ : ∃ e₁, Machine.Steps (step aliceBobSsl .pureC) (fun e ev _ => RoomForRead e ev) e₀ e₁ ∧
      AtRest e₁ ∧ e₁.tun.encNonce = 1 := by
    cases start
    exact ⟨_, .head rfl (.of_nil rfl : RoomForRead _ (.time 0)) (.head rfl (.of_nil rfl : RoomForRead _ (.time 0)) .refl),
      ⟨rfl, rfl, rfl, rfl⟩, rfl⟩
  obtain ⟨e₂, rounds, rest₂, count⟩ := exists_rounds aliceBobSsl .pureC (nonceOverflowLimit.toNat - 1) rest
    (by rw [one]; decide)
  have full : e₂.tun.encNonce ≥ nonceOverflowLimit := by
    rw [ge_iff_le, UInt64.le_iff_toNat_le, count, one]
    decide
  have inv : SendInv e₀.log.built.length e₂ :=
    (first.append rounds).invariant (.start start) fun inv taken room => inv.keep taken room
  let e₃ : Endpoint := { e₂ with pc := .read 0 plaintextReady }
  let e₄ : Endpoint := { e₂ with pc := doRekey e₂.tun, log := e₂.log.read [7] }
  have taken₁ : step aliceBobSsl .pureC e₂ (.running true) = some { e₂ with pc := .poll } := by
    simp only [step, rest₂.pc]
  have taken₂ : step aliceBobSsl .pureC { e₂ with pc := .poll } (.poll (.ready plaintextReady)) = some e₃ := rfl
  have taken₃ : step aliceBobSsl .pureC e₃ (.read (.data 7 [])) = some e₄ := by
    show some (readStep .pureC e₃ 0 plaintextReady (.data 7 [])) = some e₄
    simp only [readStep, sendDataStep, e₃, if_pos full]
    rfl
  refine ⟨e₀, e₄, start, ((first.append rounds).imp fun _ => trivial).append
    (.head taken₁ trivial (.head taken₂ trivial (.head taken₃ trivial .refl))), rfl, fun forwarded => ?_⟩
  have same : e₂.log.readPt ++ [7] = e₂.log.readPt := forwarded.trans inv.forwarded.symm
  simp at same

/-- A byte is read and sent. -/
def byteForwarded : List Ev :=
  [.time 0, .time 0, .running true, .poll (.ready plaintextReady), .read (.data 7 []), .send (.took 21), .read .again]

theorem plaintext_forwarded_byte :
    ∃ e₀ e, Mode.client.start .pureC aliceKeys 0 = some e₀ ∧
      Machine.exec (step aliceBobSsl .pureC) (fun e ev _ => decide (RoomForRead e ev)) e₀ byteForwarded = some e ∧
      e.log.readPt = [7] ∧ Forwarded e₀.log.built.length e :=
  ⟨_, _, rfl, rfl, rfl, (plaintext_forwarded aliceBobSsl .pureC .client aliceKeys 0 _ _ rfl
    (.of_exec (fun e ev _ => decide (RoomForRead e ev)) byteForwarded (fun _ => of_decide_eq_true) rfl)).1⟩

end AegisTunnel
