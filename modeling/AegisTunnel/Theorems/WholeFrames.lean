import AegisTunnel.Theorems.Nonce
import AegisTunnel.Theorems.Sending

/-! The frames on the wire: whole and with consecutive counters, as long as each keepalive is taken by its one
    `send`, no re-key fails with a part of its frame sent, and answers are built with the counter of their own
    direction. -/

namespace AegisTunnel
open Octets

/-- A frame with this key and counter may come after `f`: it has the same key and the next counter, or `f` has
    changed the key, with the counter set back or, on the side that answers, left as it was. -/
def FrameRec.Continues (f : FrameRec) (key : Block) (ctr : UInt64) : Prop :=
  key = f.key ∧ ctr.toNat = f.ctr.toNat + 1 ∨ f.frame.type = frameRekey ∧ (ctr = 0 ∨ ctr = f.ctr)

def FrameRec.Follows (f g : FrameRec) : Prop := f.Continues g.key g.ctr

/-- What was sent are the frames `ws`, one after the other, but for `rest`, which is left of the last one. -/
structure OnWire (log : Log) (ws : List FrameRec) (rest : Octets) : Prop where
  known : ∀ f ∈ ws, f ∈ log.built ∧ f.Genuine
  bytes : log.sent ++ rest = (ws.map FrameRec.wire).flatten
  unfinished : rest ≠ [] → ∃ init f, ws = init ++ [f] ∧ rest <:+ f.wire
  counters : ws.IsChain FrameRec.Follows

/-- The key and the counter of `tun` are those for a frame after `ws`. -/
def Leads (ws : List FrameRec) (tun : Tun) : Prop := ∀ f ∈ ws.getLast?, f.Continues tun.encKey tun.encNonce

theorem Leads.follows {ws : List FrameRec} {tun : Tun} {g : FrameRec} (leads : Leads ws tun) (key : g.key = tun.encKey)
    (ctr : g.ctr = tun.encNonce) : ∀ f ∈ ws.getLast?, f.Follows g := by
  intro f last
  rw [FrameRec.Follows, key, ctr]
  exact leads f last

theorem Leads.congr {ws : List FrameRec} {tun tun' : Tun} (leads : Leads ws tun) (key : tun'.encKey = tun.encKey)
    (nonce : tun'.encNonce = tun.encNonce) : Leads ws tun' := by
  rw [Leads, key, nonce]
  exact leads

theorem Leads.concat {ws : List FrameRec} {tun : Tun} {g : FrameRec} (next : g.Continues tun.encKey tun.encNonce) :
    Leads (ws ++ [g]) tun := by
  intro f last
  rw [List.getLast?_append, List.getLast?_singleton, Option.some_or, Option.mem_some_iff] at last
  exact last ▸ next

namespace OnWire
variable {log log' : Log} {ws : List FrameRec} {rest rest' : Octets}

theorem start (unsent : log.sent = []) : OnWire log [] [] where
  known f member := absurd member List.not_mem_nil
  bytes := by rw [unsent]; rfl
  unfinished some_ := absurd rfl some_
  counters := List.isChain_nil

theorem build {g : FrameRec} (inv : OnWire log ws []) (built : log'.built = log.built ++ [g])
    (sent : log'.sent = log.sent) (genuine : g.Genuine) (follows : ∀ f ∈ ws.getLast?, f.Follows g) :
    OnWire log' (ws ++ [g]) g.wire where
  known f member := by
    rw [built]
    rcases List.mem_append.mp member with before | new
    · exact ⟨List.mem_append_left _ (inv.known f before).1, (inv.known f before).2⟩
    · obtain rfl := List.mem_singleton.mp new
      exact ⟨List.mem_append_right _ new, genuine⟩
  bytes := by
    have bytes := inv.bytes
    rw [List.append_nil] at bytes
    rw [sent, bytes, List.map_append, List.flatten_append, List.map_singleton, List.flatten_singleton]
  unfinished _ := ⟨ws, g, rfl, List.suffix_rfl⟩
  counters := by
    refine List.isChain_append.mpr ⟨inv.counters, List.isChain_singleton g, fun f last g' first => ?_⟩
    obtain rfl := Option.mem_some_iff.mp first
    exact follows f last

theorem send {y : Octets} (inv : OnWire log ws rest) (built : log'.built = log.built) (sent : log'.sent = log.sent ++ y)
    (round : y ++ rest' = rest) : OnWire log' ws rest' where
  known := built ▸ inv.known
  bytes := by rw [sent, List.append_assoc, round, inv.bytes]
  unfinished some_ := by
    obtain ⟨init, f, split, suffix_⟩ := inv.unfinished (round ▸ List.append_ne_nil_of_right_ne_nil y some_)
    have part : rest' <:+ rest := ⟨y, round⟩
    exact ⟨init, f, split, part.trans suffix_⟩
  counters := inv.counters

/-- A frame of which nothing was sent is taken back. -/
theorem drop {g : FrameRec} (inv : OnWire log (ws ++ [g]) rest) (whole : g.wire.length ≤ rest.length) :
    OnWire log ws [] where
  known f member := inv.known f (List.mem_append_left _ member)
  bytes := by
    have bytes := inv.bytes
    rw [List.map_append, List.flatten_append, List.map_singleton, List.flatten_singleton] at bytes
    have same : rest = g.wire := by
      by_cases none_ : rest = []
      · rw [none_] at whole ⊢
        exact (List.eq_nil_of_length_eq_zero (Nat.le_zero.mp whole)).symm
      · obtain ⟨init, f, split, suffix_⟩ := inv.unfinished none_
        obtain rfl : g = f := (List.append_inj' split rfl).2 |> List.singleton_inj.mp
        exact suffix_.eq_of_length_le whole
    rw [same] at bytes
    rw [List.append_nil, List.append_cancel_right bytes]
  unfinished some_ := absurd rfl some_
  counters := (List.isChain_append.mp inv.counters).1

end OnWire

/-! ### Steps -/

/-- The frame of the call has been built and some of it sent. -/
def Rekey.begun (r : Rekey) : Bool := r.frameOut && r.pending.length < rekeyWireLen

/-- A keepalive goes out with its one `send`, a re-key does not fail once a part of its frame was sent, and a
    responder builds its answer with the counter `enc_nonce`. -/
structure SendsWhole (lib : OpenSsl) (b : Backend) (e : Endpoint) (ev : Ev) (e' : Endpoint) : Prop where
  keepalive : ∀ wire k, e.pc = .sendKa wire → ev = .send k → k.bytes wire = wire
  completes : ∀ r log, e.pc.rekey? = some r → r.begun = true →
    rekeyStep lib b e.tun.psk e.tun.keys r e.log ev ≠ some (.failed, log)
  answers : ∀ r r' rev, e.pc = .respond r rev → e'.pc = .respond r' rev → r.frameOut = false → r'.frameOut = true →
    r.nc + 1 = e.tun.encNonce

/-- What holds as long as the call runs: the frame of a re-key may be on the wire already while its counter has
    not been counted yet. -/
structure WireInv (e : Endpoint) (ws : List FrameRec) : Prop where
  wire : OnWire e.log ws e.pc.pending
  idle : e.pc.frameOut = false → Leads ws e.tun
  out : e.pc.frameOut = true → ∃ init g, ws = init ++ [g] ∧ Leads init e.tun ∧ g.frame.type = frameRekey ∧
    g.ctr = e.tun.encNonce ∧ g.wire.length = rekeyWireLen
  ready : e.pc.Ready e.tun

theorem Pc.Calm.frameOut {tun : Tun} {pc : Pc} (h : pc.Calm tun) : pc.frameOut = false := by
  cases pc with
  | initiate r => obtain rfl : r = Rekey.start true tun.encNonce := h; rfl
  | respond => exact h.elim
  | _ => rfl

theorem frameOut_framePc (n : UInt64) (f : Frame) (rev : Revents) : (framePc n f rev).frameOut = false := by
  unfold framePc
  split_ifs <;> rfl

theorem Effect.frameOut {lib : OpenSsl} {b : Backend} {e e' : Endpoint} {ev : Ev} (h : Effect lib b e ev e')
    (plain : e.pc.rekey? = none) : e'.pc.frameOut = false := by
  cases h with
  | move at_ goes => exact goes.frameOut
  | sent at_ round goes =>
    rcases goes with ⟨_, calm⟩ | rfl
    · exact calm.frameOut
    · rfl
  | sentKa at_ => exact (calm_pressurePc e.tun).frameOut
  | filled at_ rest goes => rcases goes with rfl | ⟨_, rfl⟩ <;> rfl
  | accepted at_ room cut parsed => exact frameOut_framePc ..
  | wrote at_ round goes => rcases goes with ⟨_, rfl⟩ | rfl <;> rfl
  | respond at_ h => rw [at_] at plain; cases plain
  | initiate at_ h => rw [at_] at plain; cases plain
  | lost | data | close | keepalive | sendFailed | sentClose | writeFailed => rfl

theorem genuine_rekeyRecord {b : Backend} {own : KeyPair} {ctr : UInt64} {key : Block} {wire : Octets}
    (built : frameBuild b frameRekey flagNone own.pub.toList ctr key = some wire) :
    (rekeyRecord key ctr own wire).Genuine ∧ wire.length = rekeyWireLen := by
  refine ⟨⟨b, built⟩, (length_frameBuild built).2.trans ?_⟩
  rw [own.pub.toList_length]
  rfl

theorem Rekey.pending_of_frameOut {r : Rekey} (h : r.frameOut = false) : r.pending = [] := by
  obtain ⟨init, nc, pc⟩ := r
  cases pc <;> first | rfl | cases h

/-- All frames so far are whole: in a call that goes on, or in one that has returned. -/
def WholeSoFar (e : Endpoint) : Prop :=
  (∃ ws, WireInv e ws) ∨ e.pc.isReturned = true ∧ ∃ ws rest, OnWire e.log ws rest

namespace WireInv
variable {lib : OpenSsl} {b : Backend} {e e' : Endpoint} {ev : Ev} {ws : List FrameRec}

theorem start {keys : SessionKeys} {keepalive : Int64} {m : Mode} (h : m.start b keys keepalive = some e) :
    WireInv e [] := by
  obtain ⟨idle, unsent, _⟩ := unsent_start h
  have pc : e.pc.frameOut = false ∧ e.pc.Ready e.tun := by
    obtain ⟨log, rfl, _⟩ := fresh_start h
    exact ⟨rfl, trivial⟩
  refine ⟨idle ▸ .start unsent, fun _ f last => ?_, fun out => ?_, pc.2⟩
  · cases last
  · rw [pc.1] at out
    cases out

/-- Outside re-keys. -/
theorem plain (inv : WireInv e ws) (plain : e.pc.rekey? = none) (taken : step lib b e ev = some e')
    (whole : SendsWhole lib b e ev e') : WholeSoFar e' := by
  have effect := step_effect taken
  have quiet' := effect.frameOut plain
  have leads := inv.idle (Pc.frameOut_of_plain plain)
  have noOut : ∀ {P : Prop}, e'.pc.frameOut = true → P := fun out => by rw [quiet'] at out; cases out
  obtain ⟨ready, idles | ⟨g, builds⟩⟩ := effect.sending plain inv.ready
  · have leads' : Leads ws e'.tun := leads.congr idles.key idles.nonce
    cases effect.hands with
    | build r idle built => exact absurd (built.symm.trans idles.built) (by simp)
    | send y built sent round => exact .inl ⟨ws, inv.wire.send built sent round, fun _ => leads', noOut, ready⟩
    | cut y built sent part ended why =>
      obtain ⟨rest, split⟩ := part
      cases why with
      | returned ends => exact .inr ⟨ends, ws, rest, inv.wire.send built sent split⟩
      | keepalive wire k at_ event bytes =>
        -- The one `send` took the whole frame.
        have all : y = e.pc.pending := by rw [← bytes, whole.keepalive wire k at_ event, at_]; rfl
        refine .inl ⟨ws, inv.wire.send built sent ?_, fun _ => leads', noOut, ready⟩
        rw [all, ended, List.append_nil]
      | rekey r log at_ => rw [plain] at at_; cases at_
  · cases effect.hands with
    | build r idle built sent next genuine =>
      obtain rfl : r = g := List.singleton_inj.mp (List.append_cancel_left (built.symm.trans builds.built))
      have wire := inv.wire
      rw [idle] at wire
      refine .inl ⟨ws ++ [r], ?_, fun _ => .concat (.inl ?_), noOut, ready⟩
      · rw [next]
        exact wire.build built sent genuine (leads.follows builds.key builds.ctr)
      · rw [builds.tun, builds.ctr, builds.key]
        exact ⟨rfl, toNat_succ builds.room⟩
    | send y built => exact absurd (builds.built.symm.trans built) (by simp)
    | cut y built => exact absurd (builds.built.symm.trans built) (by simp)

section Rekey
variable {r r' : Rekey} {log : Log}

/-- The frame of a re-key is built: the counter of the call is `enc_nonce`. -/
theorem rekeyBuild {own : KeyPair} {w : Octets} {ctr : UInt64} (inv : WireInv e ws) (at_ : e.pc.rekey? = some r)
    (at_' : e'.pc.rekey? = some r') (tun : e'.tun = e.tun) (ready : e'.pc.Ready e'.tun)
    (built : frameBuild b frameRekey flagNone own.pub.toList ctr e.tun.keys.encKey = some w) (none_ : r.pending = [])
    (quiet : r.frameOut = false) (next : ctr = e.tun.encNonce) (pending' : r'.pending = w) (done : r'.frameOut = true)
    (record : e'.log.built = e.log.built ++ [rekeyRecord e.tun.keys.encKey ctr own w]) (sent : e'.log.sent = e.log.sent) :
    ∃ ws', WireInv e' ws' := by
  obtain ⟨genuine, size⟩ := genuine_rekeyRecord built
  have leads := inv.idle ((Pc.frameOut_of_rekey at_).trans quiet)
  have wire := inv.wire
  rw [(Pc.pending_of_rekey at_).1, none_] at wire
  refine ⟨ws ++ [rekeyRecord e.tun.keys.encKey ctr own w], ?_, fun quiet' => ?_, fun _ => ?_, ready⟩
  · rw [(Pc.pending_of_rekey at_').1, pending']
    exact wire.build record sent genuine (leads.follows rfl next)
  · rw [Pc.frameOut_of_rekey at_', done] at quiet'
    cases quiet'
  · exact ⟨ws, _, rfl, leads.congr (tun ▸ rfl) (tun ▸ rfl), rfl, next.trans (tun ▸ rfl), size⟩

/-- A re-key builds nothing; some of its frame may be sent. -/
theorem rekeyKeep {y : Octets} (inv : WireInv e ws) (at_ : e.pc.rekey? = some r) (at_' : e'.pc.rekey? = some r')
    (tun : e'.tun = e.tun) (ready : e'.pc.Ready e'.tun) (same : r'.frameOut = r.frameOut)
    (round : y ++ r'.pending = r.pending) (built : e'.log.built = e.log.built) (sent : e'.log.sent = e.log.sent ++ y) :
    ∃ ws', WireInv e' ws' := by
  have out := Pc.frameOut_of_rekey at_
  have out' := Pc.frameOut_of_rekey at_'
  have wire := inv.wire
  rw [(Pc.pending_of_rekey at_).1] at wire
  refine ⟨ws, ?_, fun quiet => ?_, fun done => ?_, ready⟩
  · rw [(Pc.pending_of_rekey at_').1]
    exact wire.send built sent round
  · rw [tun]
    exact inv.idle (out.trans (same.symm.trans (out'.symm.trans quiet)))
  · rw [tun]
    exact inv.out (out.trans (same.symm.trans (out'.symm.trans done)))

/-- A step of a re-key that goes on. -/
theorem rekey (inv : WireInv e ws) (at_ : e.pc.rekey? = some r) (wf : r.Wf)
    (h : RekeyEffect lib b e.tun.psk e.tun.keys r e.log ev (.running r') log)
    (offers : r.init = true → r.frameOut = false → r.nc = e.tun.encNonce)
    (answers : r.init = false → r.frameOut = false → r'.frameOut = true → r.nc + 1 = e.tun.encNonce)
    (at_' : e'.pc.rekey? = some r') (tun : e'.tun = e.tun) (logged : e'.log = log) (ready : e'.pc.Ready e'.tun) :
    ∃ ws', WireInv e' ws' := by
  have build : ∀ {own w ctr}, frameBuild b frameRekey flagNone own.pub.toList ctr e.tun.keys.encKey = some w →
      r.pending = [] → r.frameOut = false → ctr = e.tun.encNonce → r'.pending = w → r'.frameOut = true →
      log.built = e.log.built ++ [rekeyRecord e.tun.keys.encKey ctr own w] → log.sent = e.log.sent →
      ∃ ws', WireInv e' ws' := by
    intro own w ctr built none_ quiet next pending' done record sent
    exact inv.rekeyBuild at_ at_' tun ready built none_ quiet next pending' done (logged ▸ record) (logged ▸ sent)
  have keep : ∀ {y}, r'.frameOut = r.frameOut → y ++ r'.pending = r.pending → log.built = e.log.built →
      log.sent = e.log.sent ++ y → ∃ ws', WireInv e' ws' := by
    intro y same round built sent
    exact inv.rekeyKeep at_ at_' tun ready same round (logged ▸ built) (logged ▸ sent)
  have nothing : ∀ {log' : Log}, log'.sent = e.log.sent → log'.sent = e.log.sent ++ [] := fun same =>
    same.trans (List.append_nil _).symm
  clear logged at_'
  obtain ⟨init, nc, pc⟩ := r
  cases h with
  | offer hpc side built =>
    cases hpc
    exact build built rfl rfl (offers side rfl) rfl rfl rfl rfl
  | listen hpc side =>
    cases hpc
    exact keep side rfl rfl (nothing rfl)
  | sending hpc round more =>
    cases hpc
    exact keep rfl round rfl rfl
  | sentOffer hpc round =>
    cases hpc
    exact keep (wf _ _ _ rfl).symm ((List.append_nil _).trans round) rfl rfl
  | sentAnswer hpc round =>
    cases hpc
    exact keep rfl ((List.append_nil _).trans round) rfl rfl
  | receiving hpc more =>
    cases hpc
    exact keep rfl rfl rfl (nothing rfl)
  | answered hpc side bytes enough parsed =>
    cases hpc
    exact keep side.symm rfl rfl (nothing rfl)
  | answer hpc side bytes enough parsed built =>
    cases hpc
    exact build built rfl side (answers side side rfl) rfl rfl rfl rfl

end Rekey

/-- A re-key fails: nothing of its frame was sent. -/
theorem failed {r : Rekey} {log : Log} (inv : WireInv e ws) (at_ : e.pc.rekey? = some r)
    (taken : rekeyStep lib b e.tun.psk e.tun.keys r e.log ev = some (.failed, log)) (whole : SendsWhole lib b e ev e')
    (tun : e'.tun = e.tun) (logged : e'.log = log) (plain : e'.pc.rekey? = none) (idle : e'.pc.pending = [])
    (ready : e'.pc.Ready e'.tun) : ∃ ws', WireInv e' ws' := by
  have out := Pc.frameOut_of_rekey at_
  have quiet' := Pc.frameOut_of_plain plain
  have wire := inv.wire
  rw [(Pc.pending_of_rekey at_).1] at wire
  obtain ⟨built, sent⟩ := (rekeyStep_effect taken).unsent
  -- What is on the wire then, and the frames that the counter comes after.
  have ends : ∀ {ws}, OnWire e.log ws [] → Leads ws e.tun → ∃ ws', WireInv e' ws' := by
    intro ws wire leads
    refine ⟨ws, ?_, fun _ => tun ▸ leads, fun out' => ?_, ready⟩
    · rw [idle, logged]
      exact wire.send built (sent.trans (List.append_nil _).symm) rfl
    · rw [quiet'] at out'
      cases out'
  cases done : r.frameOut with
  | false =>
    rw [Rekey.pending_of_frameOut done] at wire
    exact ends wire (inv.idle (out.trans done))
  | true =>
    obtain ⟨init, g, rfl, leads, -, -, size⟩ := inv.out (out.trans done)
    refine ends (wire.drop ?_) leads
    by_contra short
    refine whole.completes r log at_ ?_ taken
    rw [Rekey.begun, done, Bool.true_and, decide_eq_true_eq]
    omega

/-- A re-key gives new keys. -/
theorem done {r : Rekey} {keys : SessionKeys} {log : Log} (inv : WireInv e ws) (at_ : e.pc.rekey? = some r)
    (taken : rekeyStep lib b e.tun.psk e.tun.keys r e.log ev = some (.done keys, log))
    (nonce : e'.tun.encNonce = 0 ∨ e'.tun.encNonce = e.tun.encNonce) (logged : e'.log = log) (plain : e'.pc.rekey? = none)
    (idle : e'.pc.pending = []) (ready : e'.pc.Ready e'.tun) : WireInv e' ws := by
  have quiet' := Pc.frameOut_of_plain plain
  have wire := inv.wire
  rw [(Pc.pending_of_rekey at_).1] at wire
  have effect := rekeyStep_effect taken
  obtain ⟨init, nc, pc⟩ := r
  cases effect with
  | mixed hpc derived =>
    cases hpc
    obtain ⟨init, g, rfl, leads, type, ctr, size⟩ := inv.out (by rw [Pc.frameOut, at_]; rfl)
    refine ⟨?_, fun _ => .concat (.inr ⟨type, ?_⟩), fun out' => ?_, ready⟩
    · rw [idle, logged]
      exact wire
    · rw [ctr]
      exact nonce
    · rw [quiet'] at out'
      cases out'

theorem step (inv : WireInv e ws) (taken : step lib b e ev = some e') (whole : SendsWhole lib b e ev e') :
    WholeSoFar e' := by
  rcases rekey_of_step taken with plain | ⟨r, rev, ⟨res, log⟩, at_, h, rfl⟩ | ⟨r, ⟨res, log⟩, at_, h, rfl⟩
  · exact inv.plain plain taken whole
  · have ready := inv.ready
    rw [at_] at ready
    obtain ⟨wf, side⟩ := ready
    have here : e.pc.rekey? = some r := by rw [at_]; rfl
    have effect := rekeyStep_effect h
    cases res with
    | running r' =>
      exact .inl (inv.rekey here wf effect (fun init => by cases side.symm.trans init)
        (fun _ => whole.answers r r' rev at_ rfl) rfl rfl rfl ⟨effect.wf wf, effect.init_eq.trans side⟩)
    | failed => exact .inl (inv.failed here h whole rfl rfl rfl rfl trivial)
    | done keys => exact .inl ⟨ws, inv.done here h (.inr rfl) rfl rfl rfl trivial⟩
  · have ready := inv.ready
    rw [at_] at ready
    obtain ⟨wf, side, next⟩ := ready
    have here : e.pc.rekey? = some r := by rw [at_]; rfl
    have effect := rekeyStep_effect h
    cases res with
    | running r' =>
      refine .inl (inv.rekey here wf effect (fun _ => next) (fun init => by cases side.symm.trans init) rfl rfl rfl
        ⟨effect.wf wf, effect.init_eq.trans side, fun quiet => ?_⟩)
      obtain ⟨quiet, nc, -⟩ := effect.before_frame wf quiet
      exact nc.trans (next quiet)
    | failed => exact .inl (inv.failed here h whole rfl rfl rfl rfl trivial)
    | done keys => exact .inl ⟨ws, inv.done here h (.inl rfl) rfl rfl rfl trivial⟩

end WireInv

/-- In every run whose steps send whole frames, what was sent are complete frames with consecutive counters and at
    most one unfinished frame, the one in progress: none of its successor's bytes are sent before it is complete. -/
theorem whole_frames (lib : OpenSsl) (b : Backend) (m : Mode) (keys : SessionKeys) (keepalive : Int64)
    (e₀ e : Endpoint) (start : m.start b keys keepalive = some e₀)
    (run : Machine.Steps (step lib b) (SendsWhole lib b) e₀ e) :
    ∃ ws rest, OnWire e.log ws rest ∧ (e.pc.isReturned = false → rest = e.pc.pending) := by
  have inv : WholeSoFar e := by
    refine run.invariant (.inl ⟨[], .start start⟩) fun inv taken good => ?_
    rcases inv with ⟨ws, inv⟩ | ⟨ends, _⟩
    · exact inv.step taken good
    · rw [isReturned_of_step taken] at ends
      cases ends
  rcases inv with ⟨ws, inv⟩ | ⟨ends, ws, rest, wire⟩
  · exact ⟨ws, e.pc.pending, inv.wire, fun _ => rfl⟩
  · exact ⟨ws, rest, wire, fun running => by rw [ends] at running; cases running⟩

/-! ### A keepalive cut short -/

theorem FrameRec.Genuine.head {f : FrameRec} (genuine : f.Genuine) : f.wire.take 2 = [f.frame.type, f.frame.flags] := by
  obtain ⟨b, built⟩ := genuine
  rw [frameBuild_of_le (length_frameBuild built).1] at built
  rw [← Option.some.inj built]
  rfl

/-- Of one keepalive a byte is sent, the next one goes out as a whole. -/
def cutKeepalive : List Ev :=
  [.time 0, .time 0, .running true, idlePoll, .time 10, .send (.took 1), .time 10, .running true, idlePoll, .time 20,
    .send (.took 20)]

/-- What was sent starts with the types of two frames, and no frame has its type in its second byte. -/
theorem keepalive_cut_short :
    ∃ e₀ e, Mode.client.start .pureC aliceKeys 10 = some e₀ ∧
      Machine.Steps (step aliceBobSsl .pureC) (fun _ _ _ => True) e₀ e ∧ e.pc.isReturned = false ∧
      ¬ ∃ ws rest, OnWire e.log ws rest := by
  let keepalive : Frame := ⟨frameKeepalive, flagNone, []⟩
  obtain ⟨e₀, e, start, run, running, head, frames⟩ : ∃ e₀ e, Mode.client.start .pureC aliceKeys 10 = some e₀ ∧
      Machine.exec (step aliceBobSsl .pureC) (fun _ _ _ => true) e₀ cutKeepalive = some e ∧ e.pc.isReturned = false ∧
      e.log.sent.take 2 = [frameKeepalive, frameKeepalive] ∧ e.log.built.map FrameRec.frame = [keepalive, keepalive] :=
    ⟨_, _, rfl, rfl, rfl, rfl, rfl⟩
  refine ⟨e₀, e, start, .of_exec (fun _ _ _ => true) cutKeepalive (fun _ _ => trivial) run, running, ?_⟩
  rintro ⟨ws, rest, wire⟩
  have bytes := congrArg (List.take 2) wire.bytes
  rw [List.take_append_of_le_length (by
    have := congrArg List.length head
    rw [List.length_take] at this
    simp only [List.length_cons, List.length_nil] at this
    omega), head] at bytes
  cases ws with
  | nil => cases bytes
  | cons f ws =>
    obtain ⟨member, genuine⟩ := wire.known f List.mem_cons_self
    have kind : f.frame = keepalive := by
      have member := List.mem_map_of_mem (f := FrameRec.frame) member
      rw [frames] at member
      simpa using member
    have front := genuine.head
    rw [List.map_cons, List.flatten_cons, List.take_append_of_le_length (by
      have := congrArg List.length front
      rw [List.length_take] at this
      simp only [List.length_cons, List.length_nil] at this
      omega), front, kind] at bytes
    cases bytes

/-- A byte is sent in two parts, and then a keepalive. -/
def partsAndKeepalive : List Ev :=
  [.time 0, .time 0, .running true, .poll (.ready plaintextReady), .read (.data 7 []), .send (.took 5), .send .eintr,
    .send (.took 16), .read .again, .time 10, .send (.took 20)]

/-- The answer is not one with which a re-key builds a frame or ends, and a keepalive is taken as a whole. -/
def takesWhole (e : Endpoint) (ev : Ev) : Bool :=
  ev.plain && match e.pc, ev with
    | .sendKa wire, .send (.took n) => wire.length ≤ n
    | .sendKa _, .send _ => false
    | _, _ => true

theorem sendsWhole_of_takesWhole {lib : OpenSsl} {b : Backend} {e e' : Endpoint} {ev : Ev} (h : takesWhole e ev = true)
    (taken : step lib b e ev = some e') : SendsWhole lib b e ev e' := by
  obtain ⟨plain, whole⟩ := Bool.and_eq_true_iff.mp h
  refine ⟨fun wire k at_ event => ?_, fun r log at_ begun => ?_, fun r r' rev at_ at_' quiet out => ?_⟩
  · rw [at_, event] at whole
    cases k with
    | took n => exact List.take_of_length_le (of_decide_eq_true whole)
    | eintr | again | error => cases whole
  · exact (safeRekey_of_plain plain taken).completes r log at_ (Bool.and_eq_true_iff.mp begun).1
  · exact (no_answer_of_plain plain taken at_ at_' quiet out).elim

theorem whole_frames_keepalive :
    ∃ e₀ e, Mode.client.start .pureC aliceKeys 10 = some e₀ ∧
      Machine.exec (step aliceBobSsl .pureC) (fun e ev _ => takesWhole e ev) e₀ partsAndKeepalive = some e ∧
      e.log.sent.length = 41 ∧ ∃ ws rest, OnWire e.log ws rest ∧ (e.pc.isReturned = false → rest = e.pc.pending) :=
  ⟨_, _, rfl, rfl, rfl, whole_frames aliceBobSsl .pureC .client aliceKeys 10 _ _ rfl
    (.of_exec (fun e ev _ => takesWhole e ev) partsAndKeepalive
      (fun taken whole => sendsWhole_of_takesWhole whole taken) rfl)⟩

end AegisTunnel
