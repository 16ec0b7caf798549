import AegisTunnel.Theorems.Agreement
import AegisTunnel.Theorems.Sending

/-! # Counters near their limit

`do_rekey` is entered when a counter comes near its limit. What a re-key that succeeds writes back is the
counter of the own direction only, so it relieves the pressure of sending, and not that of receiving. -/

namespace AegisTunnel
open Octets

/-- From here on a counter asks for a re-key. -/
def rekeyThreshold : UInt64 := nonceOverflowLimit - nonceRekeyMargin

/-- Both counters are below the threshold, so the loop extracts frames, and neither it nor the test for nonce
    pressure asks for a re-key. -/
structure Relieved (b : Backend) (e : Endpoint) : Prop where
  sending : e.tun.encNonce < rekeyThreshold
  receiving : e.tun.decNonce < rekeyThreshold
  extracts : ∀ rev r, (extractStep b e rev).pc ≠ .initiate r
  calm : ∀ r, pressurePc e.tun ≠ .initiate r

/-- Steps of the call of `handshake_rekey` at `do_rekey`. -/
abbrev Initiates (lib : OpenSsl) (b : Backend) : Endpoint → Endpoint → Prop :=
  Machine.Steps (step lib b) fun e _ _ => ∃ r, e.pc = .initiate r

section
variable {lib : OpenSsl} {b : Backend} {e e' : Endpoint}

theorem pressurePc_of_lt {tun : Tun} (room : tun.encNonce < rekeyThreshold) (r : Rekey) : pressurePc tun ≠ .initiate r := by
  have calm : ¬ tun.encNonce ≥ nonceOverflowLimit - nonceRekeyMargin := UInt64.not_le.mpr room
  rw [pressurePc, if_neg calm]
  split <;> exact Pc.noConfusion

theorem errorsPc_of_lt {tun : Tun} (room : tun.encNonce < rekeyThreshold) (rev : Revents) (r : Rekey) :
    errorsPc tun rev ≠ .initiate r := by
  unfold errorsPc keepalivePc
  split
  · exact Pc.noConfusion
  split
  · exact Pc.noConfusion
  split
  · exact Pc.noConfusion
  · exact pressurePc_of_lt room r

theorem framePc_ne_initiate (n : UInt64) (f : Frame) (rev : Revents) (r : Rekey) : framePc n f rev ≠ .initiate r := by
  unfold framePc
  split_ifs <;> exact Pc.noConfusion

theorem relieved_iff : Relieved b e ↔ e.tun.encNonce < rekeyThreshold ∧ e.tun.decNonce < rekeyThreshold := by
  refine ⟨fun h => ⟨h.sending, h.receiving⟩, fun ⟨sending, receiving⟩ => ⟨sending, receiving, fun rev r => ?_, ?_⟩⟩
  · have calm : ¬ e.tun.decNonce ≥ nonceOverflowLimit - nonceRekeyMargin := UInt64.not_le.mpr receiving
    have room : e.tun.decNonce < nonceOverflowLimit := UInt64.lt_trans receiving (by decide)
    rw [extractStep, if_neg calm, if_neg (UInt64.not_le.mpr room)]
    split
    · exact errorsPc_of_lt sending rev r
    · exact Pc.noConfusion
    · exact framePc_ne_initiate _ _ _ _
  · exact pressurePc_of_lt sending

/-- Where the call of `handshake_rekey` can be, and what it has done to the counters. -/
def Initiating (e t : Endpoint) : Prop :=
  ((∃ r, t.pc = .initiate r) ∧ t.tun = e.tun) ∨ t.pc = .head ∨
    (t.pc = .rekeyed ∧ t.tun.encNonce = 0 ∧ t.tun.decNonce = e.tun.decNonce)

theorem Initiating.step {t u : Endpoint} {ev : Ev} (at_ : Initiating e t) (taken : step lib b t ev = some u)
    (within : ∃ r, t.pc = .initiate r) : Initiating e u := by
  obtain ⟨r, here⟩ := within
  have tun : t.tun = e.tun := by
    rcases at_ with ⟨-, tun⟩ | head | ⟨done, -⟩
    · exact tun
    · cases here.symm.trans head
    · cases here.symm.trans done
  simp only [AegisTunnel.step, here] at taken
  obtain ⟨⟨res, log⟩, -, rfl⟩ := Option.map_eq_some_iff.mp taken
  cases res with
  | running r' => exact .inl ⟨⟨r', rfl⟩, tun⟩
  | failed => exact .inr (.inl rfl)
  | done keys => exact .inr (.inr ⟨rfl, rfl, show t.tun.decNonce = e.tun.decNonce by rw [tun]⟩)

/-- What a successful re-key leaves of the counters. -/
theorem rekeyed_counters (entered : e.pc = doRekey e.tun) (run : Initiates lib b e e') (succeeded : e'.pc = .rekeyed) :
    e'.tun.encNonce = 0 ∧ e'.tun.decNonce = e.tun.decNonce := by
  have at_ : Initiating e e' := run.invariant (.inl ⟨⟨_, entered⟩, rfl⟩) fun at_ taken within => at_.step taken within
  rcases at_ with ⟨⟨r, here⟩, -⟩ | head | ⟨-, counters⟩
  · cases here.symm.trans succeeded
  · cases head.symm.trans succeeded
  · exact counters

end

/-- After a re-key that succeeds, whatever led to it, the counters are below the threshold exactly if the
    counter of receiving was below it before. -/
theorem rekey_relieves_iff {lib : OpenSsl} {b : Backend} {e e' : Endpoint} (entered : e.pc = doRekey e.tun)
    (run : Initiates lib b e e') (succeeded : e'.pc = .rekeyed) : Relieved b e' ↔ e.tun.decNonce < rekeyThreshold := by
  obtain ⟨sending, receiving⟩ := rekeyed_counters entered run succeeded
  rw [relieved_iff, sending, receiving]
  exact and_iff_right (by decide)

/-! ### Up to the threshold

A client that receives a keepalive in each round, and never reads or sends. -/

section
variable (lib : OpenSsl) (b : Backend) {e : Endpoint}

/-- Between two rounds, with nothing received that is not parsed. -/
structure Listening (e : Endpoint) : Prop extends AtRest e where
  rest_nil : e.fr.rest = []
  still : e.fr.eof = false
  sending : e.tun.encNonce = 1

abbrev StepsTo : Endpoint → Endpoint → Prop := Machine.Steps (step lib b) fun _ _ _ => True

/-- A keepalive comes in and is accepted. -/
theorem exists_keepalive (rest : Listening e) (room : e.tun.decNonce < rekeyThreshold) :
    ∃ e', StepsTo lib b e e' ∧ e'.pc = .extract encryptedReady ∧ e'.tun = { e.tun with decNonce := e.tun.decNonce + 1 } ∧
      e'.fr.rest = [] ∧ e'.fr.eof = false ∧ e'.lastRekey = 0 := by
  obtain ⟨wire, built⟩ : ∃ wire, frameBuild b frameKeepalive flagNone [] e.tun.decNonce e.tun.decKey = some wire :=
    ⟨_, frameBuild_of_le (by decide)⟩
  let e₂ : Endpoint := { e with pc := .fill encryptedReady }
  have taken₁ : step lib b e (.running true) = some { e with pc := .poll } := by simp only [step, rest.pc]
  have taken₂ : step lib b { e with pc := .poll } (.poll (.ready encryptedReady)) = some e₂ := rfl
  obtain ⟨fr, rest₃, still₃, taken₃⟩ := step_fill lib b (e := e₂) rfl rest.still rest.rest_nil (frameBuild_ne_nil built)
    ((length_frameBuild built).2.trans_le (by decide))
  let e₃ : Endpoint := { e₂ with fr := fr, log := e₂.log.recv wire, pc := .extract encryptedReady }
  obtain ⟨fr', rest₄, still₄, taken₄⟩ := step_extract lib b (e := e₃) (t := []) (f := ⟨frameKeepalive, flagNone, []⟩) rfl room
    (by rw [List.append_nil]; exact rest₃) built
  exact ⟨_, .head taken₁ trivial (.head taken₂ trivial (.head taken₃ trivial (.head taken₄ trivial .refl))), rfl, rfl, rest₄,
    still₄.trans still₃, rest.clock⟩

/-- The end of a round that has received a keepalive. -/
theorem exists_receive_round (rest : Listening e) (room : e.tun.decNonce < rekeyThreshold)
    (room' : e.tun.decNonce + 1 < rekeyThreshold) :
    ∃ e', StepsTo lib b e e' ∧ Listening e' ∧ e'.tun.decNonce = e.tun.decNonce + 1 := by
  obtain ⟨e₁, run, at_, tun, empty, still, clock⟩ := exists_keepalive lib b rest room
  have calm : ¬ e₁.tun.decNonce ≥ nonceOverflowLimit - nonceRekeyMargin := by
    rw [tun]
    exact UInt64.not_le.mpr room'
  have below : ¬ e₁.tun.decNonce ≥ nonceOverflowLimit := by
    rw [tun]
    exact UInt64.not_le.mpr (UInt64.lt_trans room' (by decide))
  have more : frameReaderTryNext b e₁.fr e₁.tun.decNonce e₁.tun.decKey = .more :=
    tryNext_of_cut_none (by rw [empty]; rfl)
  have keepalive : e₁.tun.keepaliveSec = 0 := by rw [tun]; exact rest.keepalive
  have rekey : e₁.tun.rekeySec = 120 := by rw [tun]; exact rest.rekey
  let e₂ : Endpoint := { e₁ with pc := pressurePc e₁.tun }
  have taken : step lib b e₁ .tick = some e₂ := by
    have quiet : ¬ e₁.tun.keepaliveSec > 0 := by
      rw [keepalive]
      decide
    simp only [step, at_, extractStep, if_neg calm, if_neg below, more, errorsPc, keepalivePc, encryptedReady, quiet,
      false_and, if_false, Bool.false_eq_true]
    rfl
  obtain ⟨ev, -, taken'⟩ := exists_round_end lib b (e := e₂) rfl rekey clock
  refine ⟨{ e₂ with pc := .head }, (run.tail taken trivial).tail taken' trivial,
    ⟨⟨rfl, keepalive, rekey, clock⟩, empty, still, ?_⟩, congrArg Tun.decNonce tun⟩
  show e₁.tun.encNonce = 1
  rw [tun]
  exact rest.sending

theorem toNat_rekeyThreshold : rekeyThreshold.toNat = 0xFFFFFFFFFFFFFFF0 - 10000 := rfl

theorem exists_receive_rounds (n : Nat) (rest : Listening e) (below : e.tun.decNonce.toNat + n < rekeyThreshold.toNat) :
    ∃ e', StepsTo lib b e e' ∧ Listening e' ∧ e'.tun.decNonce.toNat = e.tun.decNonce.toNat + n := by
  induction n with
  | zero => exact ⟨e, .refl, rest, rfl⟩
  | succ n ih =>
    obtain ⟨e', run, rest', count⟩ := ih (by omega)
    have room : e'.tun.decNonce < rekeyThreshold := by
      rw [UInt64.lt_iff_toNat_lt]
      omega
    have next : (e'.tun.decNonce + 1).toNat = e'.tun.decNonce.toNat + 1 :=
      toNat_succ (UInt64.lt_trans room (by decide))
    obtain ⟨e'', round, rest'', nonce⟩ := exists_receive_round lib b rest' room (by rw [UInt64.lt_iff_toNat_lt]; omega)
    exact ⟨e'', run.append round, rest'', by rw [nonce, next]; omega⟩

end

/-- Alice's call of `handshake_rekey` succeeds when Bob answers it. -/
theorem exists_rekeyed {e : Endpoint} (entered : e.pc = doRekey e.tun) :
    ∃ e', Initiates aliceBobSsl .pureC e e' ∧ e'.pc = .rekeyed := by
  obtain ⟨reply, answered⟩ : ∃ w, frameBuild .pureC frameRekey flagNone bob.pub.toList (e.tun.encNonce + 1) e.tun.decKey =
      some w := ⟨_, frameBuild_of_le (by rw [bob.pub.toList_length]; decide)⟩
  let f : FrameRec := ⟨e.tun.decKey, e.tun.encNonce + 1, ⟨frameRekey, flagNone, bob.pub.toList⟩, reply⟩
  have derived : ecdhDerive aliceBobSsl alice.priv (load 32 f.frame.payload) = some aliceBobHash := by
    show ecdhDerive aliceBobSsl alice.priv (load 32 bob.pub.toList) = some aliceBobHash
    decide
  have key : f.key = e.tun.keys.decKey := rfl
  obtain ⟨w, built, run⟩ := rekeyBuild_running .pureC e.tun.keys (Rekey.start true e.tun.encNonce) alice none e.log
  let log := e.log.build (rekeyRecord e.tun.keys.encKey e.tun.encNonce alice w)
  obtain ⟨log₁, sent, -, -⟩ := rekeyStep_sent aliceBobSsl .pureC e.tun.psk e.tun.keys alice log (e.tun.encNonce + 1) true none
    (length_rekeyWire built)
  obtain ⟨log₂, received, -, -⟩ := rekeyStep_received aliceBobSsl .pureC e.tun.psk alice log₁ true (f := f) ⟨.pureC, answered⟩
    bob.pub.toList_length key rfl
  -- The four calls of `handshake_rekey`, each within the loop.
  let e₁ : Endpoint := { e with log := log, pc := .initiate ⟨true, e.tun.encNonce + 1, .send alice w none⟩ }
  let e₂ : Endpoint := { e with log := log₁, pc := .initiate ⟨true, e.tun.encNonce + 1, .recv alice []⟩ }
  let e₃ : Endpoint :=
    { e with log := log₂, pc := .initiate ⟨true, e.tun.encNonce + 1 + 1, .mix alice (load 32 f.frame.payload)⟩ }
  have taken₁ : step aliceBobSsl .pureC e (.keygen (some alice)) = some e₁ := by
    have offered : rekeyStep aliceBobSsl .pureC e.tun.psk e.tun.keys (Rekey.start true e.tun.encNonce) e.log
        (.keygen (some alice)) = _ := congrArg some run
    simp only [step, entered, doRekey, offered]
    rfl
  have taken₂ : step aliceBobSsl .pureC e₁ (.send (.took rekeyWireLen)) = some e₂ := by
    show (rekeyStep aliceBobSsl .pureC e.tun.psk e.tun.keys ⟨true, e.tun.encNonce + 1, .send alice w none⟩ log
      (.send (.took rekeyWireLen))).map (initiateStep e₁) = some e₂
    rw [sent]
    rfl
  have taken₃ : step aliceBobSsl .pureC e₂ (.pollRecv (.ready (.ofOctets reply))) = some e₃ := by
    show (rekeyStep aliceBobSsl .pureC e.tun.psk e.tun.keys ⟨true, e.tun.encNonce + 1, .recv alice []⟩ log₁
      (.pollRecv (.ready (.ofOctets reply)))).map (initiateStep e₂) = some e₃
    rw [show reply = f.wire from rfl, received]
    rfl
  have taken₄ : ∃ e₄, step aliceBobSsl .pureC e₃ (.mix (Word.zero 16) (Word.zero 16) true) = some e₄ ∧ e₄.pc = .rekeyed := by
    simp only [step, e₃, rekeyStep, derived]
    exact ⟨_, rfl, rfl⟩
  obtain ⟨e₄, taken₄, done⟩ := taken₄
  exact ⟨e₄, .head taken₁ ⟨_, entered⟩ (.head taken₂ ⟨_, rfl⟩ (.head taken₃ ⟨_, rfl⟩ (.head taken₄ ⟨_, rfl⟩ .refl))), done⟩

/-- Nothing received yet, and the counter of sending at the threshold. -/
def pressedSender : Endpoint :=
  let tun : Tun := { tunnelInit aliceKeys.encKey aliceKeys.decKey with encNonce := rekeyThreshold }
  { tunnelStart tun Log.empty with pc := doRekey tun }

theorem rekey_relieves_sender :
    ∃ e', pressedSender.pc = doRekey pressedSender.tun ∧ pressedSender.tun.encNonce ≥ rekeyThreshold ∧
      Initiates aliceBobSsl .pureC pressedSender e' ∧ e'.pc = .rekeyed ∧ Relieved .pureC e' := by
  obtain ⟨e', run, done⟩ := exists_rekeyed (e := pressedSender) rfl
  exact ⟨e', rfl, by decide, run, done, (rekey_relieves_iff rfl run done).mpr (by decide)⟩

/-- A client that has received frames up to the threshold: its re-key succeeds and leaves the counter where it was. -/
theorem rekey_leaves_pressure :
    ∃ e₀ e e', Mode.client.start .pureC aliceKeys 0 = some e₀ ∧ StepsTo aliceBobSsl .pureC e₀ e ∧
      e.pc = doRekey e.tun ∧ e.tun.decNonce ≥ rekeyThreshold ∧ Initiates aliceBobSsl .pureC e e' ∧ e'.pc = .rekeyed ∧
      ¬ Relieved .pureC e' := by
  obtain ⟨e₀, start⟩ : ∃ e₀, Mode.client.start .pureC aliceKeys 0 = some e₀ := ⟨_, rfl⟩
  obtain ⟨e₁, first, rest, one⟩ : ∃ e₁, StepsTo aliceBobSsl .pureC e₀ e₁ ∧ Listening e₁ ∧ e₁.tun.decNonce = 1 := by
    cases start
    exact ⟨_, .head (e := .time 0) rfl trivial (.head (e := .time 0) rfl trivial .refl),
      ⟨⟨rfl, rfl, rfl, rfl⟩, rfl, rfl, rfl⟩, rfl⟩
  have limit := toNat_rekeyThreshold
  have one' : e₁.tun.decNonce.toNat = 1 := by rw [one]; rfl
  obtain ⟨e₂, rounds, rest₂, count⟩ := exists_receive_rounds aliceBobSsl .pureC (rekeyThreshold.toNat - 2) rest (by omega)
  have room : e₂.tun.decNonce < rekeyThreshold := by
    rw [UInt64.lt_iff_toNat_lt]
    omega
  obtain ⟨e₃, last, at_, tun, -, -, -⟩ := exists_keepalive aliceBobSsl .pureC rest₂ room
  have full : e₃.tun.decNonce ≥ nonceOverflowLimit - nonceRekeyMargin := by
    have next := toNat_succ (UInt64.lt_trans room (by decide))
    rw [tun, ge_iff_le, UInt64.le_iff_toNat_le]
    show rekeyThreshold.toNat ≤ (e₂.tun.decNonce + 1).toNat
    omega
  let e₄ : Endpoint := { e₃ with pc := doRekey e₃.tun }
  have taken : step aliceBobSsl .pureC e₃ .tick = some e₄ := by
    simp only [step, at_, extractStep, if_pos full]
    rfl
  obtain ⟨e₅, run, done⟩ := exists_rekeyed (e := e₄) rfl
  refine ⟨e₀, e₄, e₅, start, ((first.append rounds).append last).tail taken trivial, rfl, full, run, done, fun relieved => ?_⟩
  have below := relieved.receiving
  rw [(rekeyed_counters rfl run done).2] at below
  exact absurd full (UInt64.not_le.mpr below)

end AegisTunnel
