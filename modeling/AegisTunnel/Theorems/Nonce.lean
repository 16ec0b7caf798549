import AegisTunnel.Lib.Machine
import AegisTunnel.Theorems.Handshake
import AegisTunnel.Theorems.Tunnel

/-! Which pairs of key and nonce an endpoint uses: each one once, as long as no re-key fails after its frame
    was built and no answer is built below the counter of its own direction. -/

namespace AegisTunnel
open Octets

def FrameRec.use (r : FrameRec) : Block × UInt64 := (r.key, r.ctr)

/-- No counter was used twice with one key, and those used with the present one are below the next. -/
structure NonceInv (e : Endpoint) : Prop where
  once : (e.log.built.map FrameRec.use).Nodup
  bound : e.tun.encNonce ≤ nonceOverflowLimit
  below : e.pc.frameOut = false → ∀ r ∈ e.log.built, r.key = e.tun.encKey → r.ctr < e.tun.encNonce
  ready : e.pc.Ready e.tun

/-- No re-key fails after its frame was built, and a responder builds its answer with a counter that is not
    below `enc_nonce`. -/
structure SafeRekey (lib : OpenSsl) (b : Backend) (e : Endpoint) (ev : Ev) (e' : Endpoint) : Prop where
  completes : ∀ r log, e.pc.rekey? = some r → r.frameOut = true →
    rekeyStep lib b e.tun.psk e.tun.keys r e.log ev ≠ some (.failed, log)
  answers : ∀ r r' rev, e.pc = .respond r rev → e'.pc = .respond r' rev → r.frameOut = false → r'.frameOut = true →
    e.tun.encNonce ≤ r.nc + 1

/-- A successful re-key gives a key under which no frame was built before. -/
def FreshKeys (lib : OpenSsl) (b : Backend) (e : Endpoint) (ev : Ev) : Prop :=
  ∀ r keys log, e.pc.rekey? = some r → rekeyStep lib b e.tun.psk e.tun.keys r e.log ev = some (.done keys, log) →
    ∀ s ∈ e.log.built, s.key ≠ keys.encKey

namespace NonceInv
variable {e e' : Endpoint}

theorem keep (inv : NonceInv e) (out : e.pc.frameOut = false) (built : e'.log.built = e.log.built)
    (key : e'.tun.encKey = e.tun.encKey) (nonce : e'.tun.encNonce = e.tun.encNonce) (ready : e'.pc.Ready e'.tun) :
    NonceInv e' where
  once := by rw [built]; exact inv.once
  bound := by rw [nonce]; exact inv.bound
  below _ := by rw [built, key, nonce]; exact inv.below out
  ready := ready

theorem not_mem {ctr : UInt64} (inv : NonceInv e) (out : e.pc.frameOut = false) (le : e.tun.encNonce ≤ ctr) :
    (e.tun.encKey, ctr) ∉ e.log.built.map FrameRec.use := by
  intro used
  obtain ⟨r, member, same⟩ := List.mem_map.mp used
  obtain ⟨key, rfl⟩ := Prod.mk.inj same
  exact UInt64.not_lt.mpr le (inv.below out r member key)

theorem once_append {r : FrameRec} (inv : NonceInv e) (out : e.pc.frameOut = false) (key : r.key = e.tun.encKey)
    (le : e.tun.encNonce ≤ r.ctr) : ((e.log.built ++ [r]).map FrameRec.use).Nodup := by
  rw [List.map_append, List.map_singleton, List.nodup_append_comm, List.singleton_append, List.nodup_cons]
  refine ⟨?_, inv.once⟩
  have := inv.not_mem out le
  rwa [← key] at this

theorem lt_succ {c n : UInt64} (room : n < nonceOverflowLimit) (h : c ≤ n) : c < n + 1 := by
  rw [UInt64.lt_iff_toNat_lt, toNat_succ room]
  exact Nat.lt_succ_of_le (UInt64.le_iff_toNat_le.mp h)

theorem succ_le {n : UInt64} (room : n < nonceOverflowLimit) : n + 1 ≤ nonceOverflowLimit := by
  rw [UInt64.le_iff_toNat_le, toNat_succ room]
  exact UInt64.lt_iff_toNat_lt.mp room

theorem build {r : FrameRec} (inv : NonceInv e) (out : e.pc.frameOut = false) (builds : e.Builds r e')
    (ready : e'.pc.Ready e'.tun) : NonceInv e' where
  once := builds.built ▸ inv.once_append out builds.key (UInt64.le_of_eq builds.ctr.symm)
  bound := builds.tun ▸ succ_le builds.room
  below _ s member hkey := by
    rw [builds.tun] at hkey ⊢
    rw [builds.built] at member
    rcases List.mem_append.mp member with before | new
    · exact lt_succ builds.room (UInt64.le_of_lt (inv.below out s before hkey))
    · obtain rfl := List.mem_singleton.mp new
      exact lt_succ builds.room (UInt64.le_of_eq builds.ctr)
  ready := ready

theorem rekeyed (inv : NonceInv e) (built : e'.log.built = e.log.built)
    (fresh : ∀ s ∈ e.log.built, s.key ≠ e'.tun.encKey) (bound : e'.tun.encNonce ≤ nonceOverflowLimit)
    (ready : e'.pc.Ready e'.tun) : NonceInv e' where
  once := by rw [built]; exact inv.once
  bound := bound
  below _ s member key := absurd key (fresh s (built ▸ member))
  ready := ready

theorem rekey {lib : OpenSsl} {b : Backend} {ev : Ev} {r r' : Rekey} {log : Log} (inv : NonceInv e)
    (at_ : e.pc.rekey? = some r) (wf : r.Wf)
    (h : RekeyEffect lib b e.tun.psk e.tun.keys r e.log ev (.running r') log)
    (offers : r.init = true → r.frameOut = false → r.nc = e.tun.encNonce)
    (answers : r.init = false → r.frameOut = false → r'.frameOut = true → e.tun.encNonce ≤ r.nc + 1) :
    (log.built.map FrameRec.use).Nodup ∧
      (r'.frameOut = false → r.frameOut = false ∧ r'.nc = r.nc ∧ log.built = e.log.built) := by
  have out := Pc.frameOut_of_rekey at_
  refine ⟨?_, h.before_frame wf⟩
  -- Only `offer` and `answer` build a frame, and before them none is out.
  cases h with
  | offer hpc side built =>
    have quiet : r.frameOut = false := by rw [Rekey.frameOut, hpc]
    exact inv.once_append (out.trans quiet) rfl (UInt64.le_of_eq (offers side quiet).symm)
  | answer hpc side bytes enough parsed built =>
    have quiet : r.frameOut = false := by rw [Rekey.frameOut, hpc]; exact side
    exact inv.once_append (out.trans quiet) rfl (answers side quiet rfl)
  | listen | sending | sentOffer | sentAnswer | receiving | answered => exact inv.once

theorem running {r r' : Rekey} {log : Log} (inv : NonceInv e) (here : e.pc.rekey? = some r)
    (once : (log.built.map FrameRec.use).Nodup)
    (same : r'.frameOut = false → r.frameOut = false ∧ r'.nc = r.nc ∧ log.built = e.log.built)
    (here' : e'.pc.rekey? = some r') (tun : e'.tun = e.tun) (logged : e'.log = log) (ready : e'.pc.Ready e'.tun) :
    NonceInv e' := by
  refine ⟨logged ▸ once, tun ▸ inv.bound, fun quiet => ?_, ready⟩
  rw [Pc.frameOut_of_rekey here'] at quiet
  obtain ⟨quiet, _, built⟩ := same quiet
  rw [logged, built, tun]
  exact inv.below ((Pc.frameOut_of_rekey here).trans quiet)

theorem failed {lib : OpenSsl} {b : Backend} {ev : Ev} {r : Rekey} {log : Log} (inv : NonceInv e)
    (here : e.pc.rekey? = some r) (taken : rekeyStep lib b e.tun.psk e.tun.keys r e.log ev = some (.failed, log))
    (safe : SafeRekey lib b e ev e') (tun : e'.tun = e.tun) (logged : e'.log = log) (ready : e'.pc.Ready e'.tun) :
    NonceInv e' := by
  have built : e'.log.built = e.log.built := logged ▸ (rekeyStep_effect taken).built_eq fun _ h => by cases h
  -- Without a frame out, the counter that is dropped has not been used.
  cases out : r.frameOut with
  | true => exact absurd taken (safe.completes r log here out)
  | false => exact inv.keep ((Pc.frameOut_of_rekey here).trans out) built (tun ▸ rfl) (tun ▸ rfl) ready

theorem initiate {lib : OpenSsl} {b : Backend} {ev : Ev} {r : Rekey} {res : RekeyRes × Log} (inv : NonceInv e)
    (at_ : e.pc = .initiate r) (taken : rekeyStep lib b e.tun.psk e.tun.keys r e.log ev = some res)
    (safe : SafeRekey lib b e ev (initiateStep e res)) (fresh : FreshKeys lib b e ev) :
    NonceInv (initiateStep e res) := by
  obtain ⟨res, log⟩ := res
  have ready := inv.ready
  rw [at_] at ready
  obtain ⟨wf, side, next⟩ := ready
  have here : e.pc.rekey? = some r := by rw [at_]; rfl
  have effect := rekeyStep_effect taken
  cases res with
  | running r' =>
    obtain ⟨once, same⟩ := inv.rekey here wf effect (fun _ => next) (fun h => by cases side.symm.trans h)
    refine inv.running here once same rfl rfl rfl ⟨effect.wf wf, effect.init_eq.trans side, fun quiet => ?_⟩
    obtain ⟨quiet, nc, _⟩ := same quiet
    exact nc.trans (next quiet)
  | failed => exact inv.failed here taken safe rfl rfl trivial
  | done keys =>
    exact inv.rekeyed (effect.built_eq fun _ h => by cases h) (fresh r keys log here taken) (UInt64.zero_le) trivial

theorem respond {lib : OpenSsl} {b : Backend} {ev : Ev} {r : Rekey} {rev : Revents} {res : RekeyRes × Log}
    (inv : NonceInv e) (at_ : e.pc = .respond r rev)
    (taken : rekeyStep lib b e.tun.psk e.tun.keys r e.log ev = some res)
    (safe : SafeRekey lib b e ev (respondStep e rev res)) (fresh : FreshKeys lib b e ev) :
    NonceInv (respondStep e rev res) := by
  obtain ⟨res, log⟩ := res
  have ready := inv.ready
  rw [at_] at ready
  obtain ⟨wf, side⟩ := ready
  have here : e.pc.rekey? = some r := by rw [at_]; rfl
  have effect := rekeyStep_effect taken
  cases res with
  | running r' =>
    obtain ⟨once, same⟩ := inv.rekey here wf effect (fun h => by cases side.symm.trans h)
      (fun _ => safe.answers r r' rev at_ rfl)
    exact inv.running here once same rfl rfl rfl ⟨effect.wf wf, effect.init_eq.trans side⟩
  | failed => exact inv.failed here taken safe rfl rfl trivial
  | done keys =>
    exact inv.rekeyed (effect.built_eq fun _ h => by cases h) (fresh r keys log here taken) inv.bound trivial

theorem step {lib : OpenSsl} {b : Backend} {ev : Ev} (inv : NonceInv e) (taken : step lib b e ev = some e')
    (safe : SafeRekey lib b e ev e') (fresh : FreshKeys lib b e ev) : NonceInv e' := by
  rcases rekey_of_step taken with plain | ⟨r, rev, res, at_, h, rfl⟩ | ⟨r, res, at_, h, rfl⟩
  -- Outside re-keys a frame is built with the next counter or not at all.
  · have out : e.pc.frameOut = false := Pc.frameOut_of_plain plain
    obtain ⟨ready, idles | ⟨r, builds⟩⟩ := (step_effect taken).sending plain inv.ready
    · exact inv.keep out idles.built idles.key idles.nonce ready
    · exact inv.build out builds ready
  · exact inv.respond at_ h safe fresh
  · exact inv.initiate at_ h safe fresh

theorem start {b : Backend} {keys : SessionKeys} {keepalive : Int64} {m : Mode} (h : m.start b keys keepalive = some e) :
    NonceInv e := by
  have bound : (m.tun keys keepalive).encNonce ≤ nonceOverflowLimit := by
    cases m with
    | client | server => exact (by decide : (1 : UInt64) ≤ nonceOverflowLimit)
    | socksClient | socksServer => exact (by decide : (2 : UInt64) ≤ nonceOverflowLimit)
  obtain ⟨log, rfl, built, _⟩ := fresh_start h
  rcases built with none_ | ⟨r, one, _, lt⟩
  · refine ⟨?_, bound, fun _ r member => ?_, trivial⟩
    · rw [show (tunnelStart _ log).log.built = [] from none_]; exact List.nodup_nil
    · rw [show (tunnelStart _ log).log.built = [] from none_] at member; cases member
  · refine ⟨?_, bound, fun _ s member _ => ?_, trivial⟩
    · rw [show (tunnelStart _ log).log.built = [r] from one]; exact List.nodup_singleton _
    · rw [show (tunnelStart _ log).log.built = [r] from one] at member
      obtain rfl := List.mem_singleton.mp member
      exact lt

end NonceInv

/-- No two frames of an endpoint use the same key and nonce, in every run whose re-keys are safe. -/
theorem nonces_unique (lib : OpenSsl) (b : Backend) (m : Mode) (keys : SessionKeys) (keepalive : Int64)
    (e₀ e : Endpoint) (start : m.start b keys keepalive = some e₀)
    (run : Machine.Steps (step lib b) (fun e ev e' => SafeRekey lib b e ev e' ∧ FreshKeys lib b e ev) e₀ e) :
    (e.log.built.map fun r => (r.key, nonceFromCounter r.ctr)).Nodup := by
  have inv : NonceInv e := run.invariant (NonceInv.start start) fun inv taken good => inv.step taken good.1 good.2
  have nonces : (e.log.built.map fun r => (r.key, nonceFromCounter r.ctr)) =
      (e.log.built.map FrameRec.use).map (Prod.map id nonceFromCounter) := by
    rw [List.map_map]
    rfl
  rw [nonces]
  exact inv.once.map (Function.injective_id.prodMap nonceFromCounter_injective)

theorem freshKeys_of_ne_mix {lib : OpenSsl} {b : Backend} {e : Endpoint} {ev : Ev}
    (h : ∀ nc2 ns alloc, ev ≠ .mix nc2 ns alloc) : FreshKeys lib b e ev := by
  intro r keys log _ taken
  cases rekeyStep_effect taken with
  | mixed => exact absurd rfl (h _ _ _)

/-- An answer with which no re-key builds a frame or comes to its end, unless it gets no key pair. -/
def Ev.plain : Ev → Bool
  | .keygen (some _) | .pollRecv _ | .mix .. => false
  | .send (.took 0) | .send .again | .send .error => false
  | _ => true

theorem no_answer_of_plain {lib : OpenSsl} {b : Backend} {e e' : Endpoint} {ev : Ev} {r r' : Rekey} {rev : Revents}
    (plain : ev.plain = true) (taken : step lib b e ev = some e') (at_ : e.pc = .respond r rev)
    (at_' : e'.pc = .respond r' rev) (quiet : r.frameOut = false) (out : r'.frameOut = true) : False := by
  simp only [step, at_] at taken
  obtain ⟨⟨res, log⟩, h, rfl⟩ := Option.map_eq_some_iff.mp taken
  cases res with
  | failed | done => cases at_'
  | running r₁ =>
    cases at_'
    cases rekeyStep_effect h with
    | sending hpc | sentOffer hpc | sentAnswer hpc => rw [Rekey.frameOut, hpc] at quiet; cases quiet
    | offer | listen | receiving | answered | answer => cases plain

theorem safeRekey_of_plain {lib : OpenSsl} {b : Backend} {e e' : Endpoint} {ev : Ev} (plain : ev.plain = true)
    (taken : step lib b e ev = some e') : SafeRekey lib b e ev e' where
  completes r log _ out failed := by
    cases rekeyStep_effect failed with
    | noKeyPair at_ => rw [Rekey.frameOut, at_] at out; cases out
    | @sendFailed own pending peer k at_ round =>
      cases k with
      | took n =>
        cases n with
        | zero => cases plain
        | succ n => cases round
      | eintr => cases round
      | again | error => cases plain
    | recvFailed | mixFailed => cases plain
  answers r r' rev at_ at_' quiet out := (no_answer_of_plain plain taken at_ at_' quiet out).elim

/-! ### Runs of one endpoint -/

def idlePoll : Ev := .poll (.ready ⟨false, false, false, false⟩)
def plaintextPoll : Ev := .poll (.ready ⟨true, false, false, false⟩)

/-- A keepalive, a re-key that gets no key pair, and another keepalive. -/
def keepaliveRun : List Ev :=
  [.time 0, .time 0, .running true, idlePoll, .time 10, .send (.took 20), .time 120, .keygen none,
    .running true, idlePoll, .time 130]

theorem nonces_unique_keepalives :
    ∃ e₀ e, Mode.client.start .pureC aliceKeys 10 = some e₀ ∧
      Machine.exec (step aliceBobSsl .pureC) (fun _ ev _ => ev.plain) e₀ keepaliveRun = some e ∧
      e.log.built.length = 2 ∧ (e.log.built.map fun r => (r.key, nonceFromCounter r.ctr)).Nodup := by
  refine ⟨_, _, rfl, rfl, rfl, nonces_unique aliceBobSsl .pureC .client aliceKeys 10 _ _ rfl
    (.of_exec (fun _ ev _ => ev.plain) keepaliveRun (fun taken plain => ?_) rfl)⟩
  exact ⟨safeRekey_of_plain plain taken, freshKeys_of_ne_mix fun _ _ _ h => by subst h; cases plain⟩

/-- A re-key whose answer does not come in time, and then a byte to forward. -/
def timedOutRekey : List Ev :=
  [.time 0, .time 0, .running true, idlePoll, .time 120, .keygen (some alice), .send (.took 52), .pollRecv .timeout,
    .running true, plaintextPoll, .read (.data 7 [])]

def Ev.isMix : Ev → Bool
  | .mix .. => true
  | _ => false

/-- The REKEY frame and the DATA frame after it have the same key and the same nonce. -/
theorem rekey_timeout_reuses_nonce :
    ∃ e₀ e, Mode.client.start .pureC aliceKeys 0 = some e₀ ∧
      Machine.Steps (step aliceBobSsl .pureC) (fun e ev _ => FreshKeys aliceBobSsl .pureC e ev) e₀ e ∧
      ¬ (e.log.built.map fun r => (r.key, nonceFromCounter r.ctr)).Nodup := by
  refine ⟨_, _, rfl, .of_exec (fun _ ev _ => !ev.isMix) timedOutRekey (fun _ noMix => ?_) rfl, ?_⟩
  · exact freshKeys_of_ne_mix fun _ _ _ h => by subst h; cases noMix
  · show ¬ [(aliceKeys.encKey, nonceFromCounter 1), (aliceKeys.encKey, nonceFromCounter 1)].Nodup
    simp

end AegisTunnel
