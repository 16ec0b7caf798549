import AegisTunnel.Tunnel
import AegisTunnel.Theorems.Handshake
import AegisTunnel.Theorems.Rekey

/-! Whether the two ends of `handshake_rekey` agree on the new keys, and what the initiator takes for an
    answer. -/

namespace AegisTunnel
open Octets

/-- A call of `handshake_rekey`: its arguments and the answers it gets. -/
structure RekeyCall where
  b : Backend
  psk : Octets
  keys : SessionKeys
  nc : UInt64
  evs : List Ev

def RekeyCall.run (lib : OpenSsl) (init : Bool) (c : RekeyCall) : Option (RekeyRes × Log) :=
  rekeyRun lib c.b c.psk c.keys (Rekey.start init c.nc) Log.empty c.evs

/-- The random bytes that the call mixes into its keys. -/
def RekeyCall.draws (c : RekeyCall) : Option (Block × Block) :=
  match c.evs.getLast? with
  | some (.mix nc2 ns _) => some (nc2, ns)
  | _ => none

/-! ### Where a call is -/

/-- The places of a call that started with the counter `nc` and gets its answers from `evs`, with what it has
    built and accepted by then. -/
inductive RekeyAt (b : Backend) (keys : SessionKeys) (nc : UInt64) (evs : List Ev) : Rekey → Log → Prop where
  | start {init log} (built : log.built = []) (accepted : log.accepted = []) :
      RekeyAt b keys nc evs ⟨init, nc, .keygen⟩ log
  | offering {own pending w log} (pair : .keygen (some own) ∈ evs)
      (built : log.built = [rekeyRecord keys.encKey nc own w]) (accepted : log.accepted = []) :
      RekeyAt b keys nc evs ⟨true, nc + 1, .send own pending none⟩ log
  | awaiting {own got w log} (pair : .keygen (some own) ∈ evs) (short : got.length ≤ rekeyWireLen)
      (built : log.built = [rekeyRecord keys.encKey nc own w]) (accepted : log.accepted = []) :
      RekeyAt b keys nc evs ⟨true, nc + 1, .recv own got⟩ log
  | listening {own got log} (pair : .keygen (some own) ∈ evs) (short : got.length ≤ rekeyWireLen)
      (built : log.built = []) (accepted : log.accepted = []) :
      RekeyAt b keys nc evs ⟨false, nc, .recv own got⟩ log
  | answering {own pending w f rb log} (pair : .keygen (some own) ∈ evs) (length : rb.length = rekeyWireLen)
      (parsed : frameParse b rb nc keys.decKey = .ok f)
      (built : log.built = [rekeyRecord keys.encKey (nc + 1) own w]) (accepted : log.accepted = [⟨keys.decKey, nc, f, rb⟩]) :
      RekeyAt b keys nc evs ⟨false, nc + 1 + 1, .send own pending (some (load 32 f.payload))⟩ log
  | mixing {init own w f rb log} (pair : .keygen (some own) ∈ evs) (length : rb.length = rekeyWireLen)
      (parsed : frameParse b rb (if init then nc + 1 else nc) keys.decKey = .ok f)
      (built : log.built = [rekeyRecord keys.encKey (if init then nc else nc + 1) own w])
      (accepted : log.accepted = [⟨keys.decKey, if init then nc + 1 else nc, f, rb⟩]) :
      RekeyAt b keys nc evs ⟨init, nc + 1 + 1, .mix own (load 32 f.payload)⟩ log

section
variable {lib : OpenSsl} {b : Backend} {psk : Octets} {keys : SessionKeys} {nc : UInt64} {r r' : Rekey} {log log' : Log}
  {evs : List Ev} {ev : Ev} {k : SessionKeys}

theorem length_round_le {got : Octets} (k : PollRecv) (short : got.length ≤ rekeyWireLen) :
    (got ++ k.taken (rekeyWireLen - got.length)).length ≤ rekeyWireLen := by
  have taken : (k.taken (rekeyWireLen - got.length)).length ≤ rekeyWireLen - got.length := by
    unfold PollRecv.taken Offer.taken
    split
    · split
      · exact List.length_take_le _ _
      · exact Nat.zero_le _
    · exact Nat.zero_le _
  rw [List.length_append]
  omega

theorem RekeyAt.step (inv : RekeyAt b keys nc evs r log) (member : ev ∈ evs)
    (h : RekeyEffect lib b psk keys r log ev (.running r') log') : RekeyAt b keys nc evs r' log' := by
  cases h with
  | offer at_ side =>
    cases inv with
    | start built accepted =>
      obtain rfl : _ = true := side
      exact .offering member (congrArg (· ++ _) built) accepted
    | _ => cases at_
  | listen at_ side =>
    cases inv with
    | start built accepted =>
      cases at_
      obtain rfl : _ = false := side
      exact .listening member (Nat.zero_le _) built accepted
    | _ => cases at_
  | sending at_ =>
    cases inv with
    | offering pair built accepted => cases at_; exact .offering pair built accepted
    | answering pair length parsed built accepted => cases at_; exact .answering pair length parsed built accepted
    | _ => cases at_
  | sentOffer at_ =>
    cases inv with
    | offering pair built accepted => cases at_; exact .awaiting pair (Nat.zero_le _) built accepted
    | _ => cases at_
  | sentAnswer at_ =>
    cases inv with
    | answering pair length parsed built accepted => cases at_; exact .mixing pair length parsed built accepted
    | _ => cases at_
  | receiving at_ more =>
    cases inv with
    | awaiting pair short built accepted => cases at_; exact .awaiting pair (Nat.le_of_lt more) built accepted
    | listening pair short built accepted => cases at_; exact .listening pair (Nat.le_of_lt more) built accepted
    | _ => cases at_
  | answered at_ side bytes enough parsed =>
    cases inv with
    | awaiting pair short built accepted =>
      cases at_
      exact .mixing pair (Nat.le_antisymm (bytes ▸ length_round_le _ short) enough) parsed built (congrArg (· ++ _) accepted)
    | listening => cases side
    | _ => cases at_
  | answer at_ side bytes enough parsed =>
    cases inv with
    | awaiting => cases side
    | listening pair short built accepted =>
      cases at_
      exact .answering pair (Nat.le_antisymm (bytes ▸ length_round_le _ short) enough) parsed (congrArg (· ++ _) built)
        (congrArg (· ++ _) accepted)
    | _ => cases at_

/-- Up to its last step a call does not hash. -/
theorem rekeyStep_running_sha (sha : Octets → Word 32) (h : rekeyStep lib b psk keys r log ev = some (.running r', log')) :
    rekeyStep { lib with sha256 := sha } b psk keys r log ev = some (.running r', log') := by
  obtain ⟨init, n, pc⟩ := r
  cases pc with
  | mix own ppub =>
    cases rekeyStep_effect h with
    | _ at_ => cases at_
  | keygen | send | recv =>
    cases ev with
    | keygen pair => cases pair <;> exact h
    | _ => exact h

/-- What a call does that goes on through `tail` and returns 0. -/
structure Finishes (lib : OpenSsl) (b : Backend) (psk : Octets) (keys : SessionKeys) (nc : UInt64) (init : Bool)
    (evs : List Ev) (r : Rekey) (log : Log) (tail : List Ev) (log' : Log) (own : KeyPair) (raw : Word 32) (f : Frame)
    (nc2 ns : Block) : Prop where
  pair : .keygen (some own) ∈ evs
  built : ∃ w, log'.built = [rekeyRecord keys.encKey (if init then nc else nc + 1) own w]
  accepted : ∃ rb, rb.length = rekeyWireLen ∧ frameParse b rb (if init then nc + 1 else nc) keys.decKey = .ok f ∧
    log'.accepted = [⟨keys.decKey, if init then nc + 1 else nc, f, rb⟩]
  last : tail.getLast? = some (.mix nc2 ns true)
  shared : lib.x25519 own.priv (load 32 f.payload) = some raw
  run : ∀ sha, rekeyRun { lib with sha256 := sha } b psk keys r log tail =
    some (.done (rekeyKeys { lib with sha256 := sha } init psk (sha raw.toList) nc2 ns), log')

theorem finishes_of_mixed (inv : RekeyAt b keys nc evs r log)
    (taken : rekeyStep lib b psk keys r log ev = some (.done k, log')) :
    ∃ own raw f nc2 ns, Finishes lib b psk keys nc r.init evs r log [ev] log' own raw f nc2 ns := by
  cases rekeyStep_effect taken with
  | @mixed own ppub nc2 ns sh at_ derived =>
    cases inv with
    | @mixing init _ w f rb _ pair length parsed built accepted =>
      cases at_
      obtain ⟨raw, shared, _⟩ := Option.map_eq_some_iff.mp derived
      refine ⟨own, raw, f, nc2, ns, pair, ⟨w, built⟩, ⟨rb, length, parsed, accepted⟩, rfl, shared, fun sha => ?_⟩
      have derived' : ecdhDerive { lib with sha256 := sha } own.priv (load 32 f.payload) = some (sha raw.toList) :=
        by simp [ecdhDerive, shared]
      simp only [rekeyRun, rekeyStep, derived']
      rfl
    | _ => cases at_

theorem finishes_of_rekeyRun {init : Bool} {tail : List Ev} (inv : RekeyAt b keys nc evs r log) (side : r.init = init)
    (sub : ∀ ev ∈ tail, ev ∈ evs) (h : rekeyRun lib b psk keys r log tail = some (.done k, log')) :
    ∃ own raw f nc2 ns, Finishes lib b psk keys nc init evs r log tail log' own raw f nc2 ns := by
  -- By induction over the answers still to come: all but the last keep the call going, the last mixes the keys.
  induction tail generalizing r log with
  | nil => cases h
  | cons ev tail ih =>
    unfold rekeyRun at h
    split at h
    next r' log₁ taken =>
      have effect := rekeyStep_effect taken
      obtain ⟨own, raw, f, nc2, ns, fin⟩ := ih (inv.step (sub ev List.mem_cons_self) effect) (effect.init_eq.trans side)
        (fun ev member => sub ev (List.mem_cons_of_mem _ member)) h
      refine ⟨own, raw, f, nc2, ns, fin.pair, fin.built, fin.accepted, ?_, fin.shared, fun sha => ?_⟩
      · rw [List.getLast?_cons, fin.last]
        rfl
      · rw [rekeyRun, rekeyStep_running_sha sha taken]
        exact fin.run sha
    next res hres taken =>
      split at h
      next last =>
        cases h
        obtain rfl := List.isEmpty_iff.mp last
        exact side ▸ finishes_of_mixed inv taken
      next => cases h
    next => cases h

theorem rekeyRun_built {res : RekeyRes} {tail : List Ev} (only : ∀ f ∈ log.built, f.frame.type = frameRekey)
    (h : rekeyRun lib b psk keys r log tail = some (res, log')) : ∀ f ∈ log'.built, f.frame.type = frameRekey := by
  induction tail generalizing r log with
  | nil => cases h; exact only
  | cons ev tail ih =>
    have step : ∀ {res log₁}, rekeyStep lib b psk keys r log ev = some (res, log₁) →
        ∀ f ∈ log₁.built, f.frame.type = frameRekey := by
      intro res log₁ taken f member
      rcases (rekeyStep_effect taken).built_cases with same | ⟨own, ctr, w, _, _, more⟩
      · exact only f (same ▸ member)
      · rw [more] at member
        rcases List.mem_append.mp member with before | new
        · exact only f before
        · obtain rfl := List.mem_singleton.mp new
          rfl
    unfold rekeyRun at h
    split at h
    next r' log₁ taken => exact ih (step taken) h
    next res hres taken =>
      split at h
      next => cases h; exact step taken
      next => cases h
    next => cases h

end

section Agreement
variable {lib : OpenSsl} {c i r : RekeyCall} {init : Bool} {k kI kR : SessionKeys} {log logI logR : Log}

theorem RekeyCall.finishes (h : c.run lib init = some (.done k, log)) : ∃ own raw f nc2 ns,
    Finishes lib c.b c.psk c.keys c.nc init c.evs (Rekey.start init c.nc) Log.empty c.evs log own raw f nc2 ns :=
  finishes_of_rekeyRun (.start rfl rfl) rfl (fun _ member => member) h

theorem Finishes.draws {lib : OpenSsl} {own : KeyPair} {raw : Word 32} {f : Frame} {nc2 ns : Block}
    (h : Finishes lib c.b c.psk c.keys c.nc init c.evs (Rekey.start init c.nc) Log.empty c.evs log own raw f nc2 ns) :
    c.draws = some (nc2, ns) := by
  rw [RekeyCall.draws, h.last]

/-- Each end sends with the key that the other receives with. -/
def Crossed (k k' : SessionKeys) : Prop := k.encKey = k'.decKey ∧ k.decKey = k'.encKey

theorem mix_injective {psk psk' : Octets} {sh : Word 32} {nc2 ns nc2' ns' : Block}
    (h : psk ++ sh.toList ++ nc2.toList ++ ns.toList = psk' ++ sh.toList ++ nc2'.toList ++ ns'.toList) :
    psk = psk' ∧ nc2 = nc2' ∧ ns = ns' := by
  obtain ⟨h, hns⟩ := List.append_inj' h (by simp)
  obtain ⟨h, hnc⟩ := List.append_inj' h (by simp)
  exact ⟨List.append_cancel_right h, Subtype.ext hnc, Subtype.ext hns⟩

/-- A hash that singles out one text. -/
def singleOut (text l : Octets) : Word 32 := if l = text then List.Vector.replicate 32 1 else Word.zero 32

/-- If the ends agree whatever the hash is, they hash the same text. -/
theorem mix_eq_of_crossed {raw : Word 32} {psk psk' : Octets} {nc2 ns nc2' ns' : Block}
    (h : ∀ sha, Crossed (rekeyKeys { lib with sha256 := sha } true psk (sha raw.toList) nc2 ns)
      (rekeyKeys { lib with sha256 := sha } false psk' (sha raw.toList) nc2' ns')) :
    psk = psk' ∧ nc2 = nc2' ∧ ns = ns' := by
  -- The text is longer than the secret that is hashed into it, so the hash of the secret is zero.
  let text := psk ++ (Word.zero 32).toList ++ nc2.toList ++ ns.toList
  have hraw : singleOut text raw.toList = Word.zero 32 := by
    refine if_neg fun same => ?_
    have := congrArg List.length same
    simp [text] at this
  have crossed := (h (singleOut text)).1
  simp only [rekeyKeys, hraw, if_true, Bool.false_eq_true, if_false] at crossed
  rw [show singleOut text (psk ++ (Word.zero 32).toList ++ nc2.toList ++ ns.toList) = _ from if_pos rfl] at crossed
  by_cases same : psk' ++ (Word.zero 32).toList ++ nc2'.toList ++ ns'.toList = text
  · exact mix_injective same.symm
  · rw [show singleOut text _ = _ from if_neg same] at crossed
    exact absurd crossed (by decide)

/-- The ends of an exchange in which both calls returned 0 share one secret. -/
theorem shared_of_exchange {ownI ownR : KeyPair} {rawI rawR : Word 32} {fI fR : Frame} {aI bI aR bR : Block}
    (hI : Finishes lib i.b i.psk i.keys i.nc true i.evs (Rekey.start true i.nc) Log.empty i.evs logI ownI rawI fI aI bI)
    (hR : Finishes lib r.b r.psk r.keys r.nc false r.evs (Rekey.start false r.nc) Log.empty r.evs logR ownR rawR fR aR bR)
    (there : logR.accepted = logI.built) (back : logI.accepted = logR.built)
    (dh : ∀ a b, .keygen (some a) ∈ i.evs → .keygen (some b) ∈ r.evs → lib.x25519 a.priv b.pub = lib.x25519 b.priv a.pub) :
    rawI = rawR := by
  obtain ⟨_, builtI⟩ := hI.built
  obtain ⟨_, builtR⟩ := hR.built
  obtain ⟨_, _, _, acceptedI⟩ := hI.accepted
  obtain ⟨_, _, _, acceptedR⟩ := hR.accepted
  rw [acceptedR, builtI] at there
  rw [acceptedI, builtR] at back
  have pubI : fR.payload = ownI.pub.toList := congrArg (·.frame.payload) (List.singleton_inj.mp there)
  have pubR : fI.payload = ownR.pub.toList := congrArg (·.frame.payload) (List.singleton_inj.mp back)
  have sharedI := hI.shared
  have sharedR := hR.shared
  rw [pubR, load_toList, dh ownI ownR hI.pair hR.pair] at sharedI
  rw [pubI, load_toList] at sharedR
  exact Option.some.inj (sharedI.symm.trans sharedR)

/-- Whatever the hash is, the keys are crossed if both calls return 0. -/
def RekeyCall.AgreesWith (lib : OpenSsl) (i r : RekeyCall) : Prop :=
  ∀ sha kI kR logI logR, i.run { lib with sha256 := sha } true = some (.done kI, logI) →
    r.run { lib with sha256 := sha } false = some (.done kR, logR) → Crossed kI kR

theorem agreesWith_iff (hI : i.run lib true = some (.done kI, logI)) (hR : r.run lib false = some (.done kR, logR))
    (there : logR.accepted = logI.built) (back : logI.accepted = logR.built)
    (dh : ∀ a b, .keygen (some a) ∈ i.evs → .keygen (some b) ∈ r.evs → lib.x25519 a.priv b.pub = lib.x25519 b.priv a.pub) :
    i.AgreesWith lib r ↔ i.psk = r.psk ∧ i.draws = r.draws := by
  obtain ⟨ownI, rawI, fI, aI, bI, finI⟩ := RekeyCall.finishes hI
  obtain ⟨ownR, rawR, fR, aR, bR, finR⟩ := RekeyCall.finishes hR
  obtain rfl := shared_of_exchange finI finR there back dh
  rw [finI.draws, finR.draws]
  constructor
  · intro crossed
    obtain ⟨hpsk, ha, hb⟩ := mix_eq_of_crossed fun sha => crossed sha _ _ _ _ (finI.run sha) (finR.run sha)
    exact ⟨hpsk, congrArg some (Prod.ext ha hb)⟩
  -- The frames of the exchange do not depend on the hash, so both calls also return 0 with `sha`.
  · rintro ⟨hpsk, hdraws⟩ sha kI kR logI logR runI runR
    obtain ⟨rfl, rfl⟩ := Prod.mk.inj (Option.some.inj hdraws)
    cases (finI.run sha).symm.trans runI
    cases (finR.run sha).symm.trans runR
    rw [hpsk]
    exact ⟨rfl, rfl⟩

end Agreement

/-! ### An exchange that goes through -/

def initiatorEvs (own : KeyPair) (wire : Octets) (nc2 ns : Block) : List Ev :=
  [.keygen (some own), .send (.took rekeyWireLen), .pollRecv (.ready (.ofOctets wire)), .mix nc2 ns true]

def responderEvs (own : KeyPair) (wire : Octets) (nc2 ns : Block) : List Ev :=
  [.keygen (some own), .pollRecv (.ready (.ofOctets wire)), .send (.took rekeyWireLen), .mix nc2 ns true]

section
variable {lib : OpenSsl} {b : Backend} {psk : Octets} {keys : SessionKeys} {nc : UInt64} {own : KeyPair} {f : FrameRec}
  {log : Log} {w : Octets} {sh : Word 32}

theorem sendAllRound_all (h : w.length = rekeyWireLen) : sendAllRound w (.took rekeyWireLen) = some [] :=
  congrArg some (List.drop_of_length_le h.le)

theorem recvAllRound_all (h : w.length = rekeyWireLen) : recvAllRound rekeyWireLen [] (.ready (.ofOctets w)) = some w := by
  cases w with
  | nil => cases h
  | cons x xs => exact congrArg some (List.take_of_length_le h.le)

theorem length_genuine (genuine : f.Genuine) (len : f.frame.payload.length = 32) : f.wire.length = rekeyWireLen := by
  obtain ⟨b, built⟩ := genuine
  rw [(length_frameBuild built).2, len]
  rfl

theorem rekeyRun_cons {r r' : Rekey} {log' : Log} {ev : Ev} {evs : List Ev}
    (h : rekeyStep lib b psk keys r log ev = some (.running r', log')) :
    rekeyRun lib b psk keys r log (ev :: evs) = rekeyRun lib b psk keys r' log' evs := by
  rw [rekeyRun, h]

variable (lib b psk keys own log) in
theorem rekeyStep_sent (nc : UInt64) (init : Bool) (peer : Option (Word 32)) (h : w.length = rekeyWireLen) :
    ∃ log', rekeyStep lib b psk keys ⟨init, nc, .send own w peer⟩ log (.send (.took rekeyWireLen)) =
        some (.running ⟨init, nc, peer.elim (.recv own []) (.mix own)⟩, log') ∧
      log'.built = log.built ∧ log'.accepted = log.accepted := by
  refine ⟨log.send (w.take rekeyWireLen), ?_, rfl, rfl⟩
  simp only [rekeyStep, sendAllRound_all h]
  cases peer <;> rfl

variable (lib b psk own log) in
theorem rekeyStep_received (init : Bool) (genuine : f.Genuine) (len : f.frame.payload.length = 32)
    (key : f.key = keys.decKey) (ctr : f.ctr = nc) :
    ∃ log', rekeyStep lib b psk keys ⟨init, nc, .recv own []⟩ log (.pollRecv (.ready (.ofOctets f.wire))) =
        some (if init then (.running ⟨init, nc + 1, .mix own (load 32 f.frame.payload)⟩, log')
          else rekeyBuild b keys ⟨init, nc + 1, .recv own []⟩ own (some (load 32 f.frame.payload)) log') ∧
      log'.built = log.built ∧ log'.accepted = log.accepted ++ [f] := by
  have flen := length_genuine genuine len
  have parsed : frameParse b f.wire nc keys.decKey = .ok f.frame := by rw [← key, ← ctr]; exact parse_genuine genuine
  have same : (⟨keys.decKey, nc, f.frame, f.wire⟩ : FrameRec) = f := by rw [← key, ← ctr]
  refine ⟨(log.recv ((PollRecv.ready (.ofOctets f.wire)).taken rekeyWireLen)).accept f, ?_, rfl, rfl⟩
  simp only [rekeyStep, recvAllRound_all flen, if_neg (Nat.not_lt.mpr flen.ge), rekeyParse, parsed, same]
  rfl

theorem rekeyStep_mixed {init : Bool} {ppub : Word 32} (derived : ecdhDerive lib own.priv ppub = some sh) (nc2 ns : Block) :
    rekeyRun lib b psk keys ⟨init, nc, .mix own ppub⟩ log [.mix nc2 ns true] =
      some (.done (rekeyKeys lib init psk sh nc2 ns), log) := by
  simp only [rekeyRun, rekeyStep, derived]
  rfl

theorem length_rekeyWire (h : frameBuild b frameRekey flagNone own.pub.toList nc keys.encKey = some w) :
    w.length = rekeyWireLen := by
  rw [(length_frameBuild h).2, own.pub.toList_length]
  rfl

variable (b psk own) in
theorem rekeyRun_initiator (genuine : f.Genuine) (len : f.frame.payload.length = 32) (key : f.key = keys.decKey)
    (ctr : f.ctr = nc + 1) (derived : ecdhDerive lib own.priv (load 32 f.frame.payload) = some sh) (nc2 ns : Block) :
    ∃ log w, rekeyRun lib b psk keys (Rekey.start true nc) Log.empty (initiatorEvs own f.wire nc2 ns) =
        some (.done (rekeyKeys lib true psk sh nc2 ns), log) ∧
      frameBuild b frameRekey flagNone own.pub.toList nc keys.encKey = some w ∧
      log.built = [rekeyRecord keys.encKey nc own w] ∧ log.accepted = [f] := by
  obtain ⟨w, built, run⟩ := rekeyBuild_running b keys (Rekey.start true nc) own none Log.empty
  have offered : rekeyStep lib b psk keys (Rekey.start true nc) Log.empty (.keygen (some own)) = _ := congrArg some run
  obtain ⟨log₁, sent, built₁, accepted₁⟩ := rekeyStep_sent lib b psk keys own
    (Log.empty.build (rekeyRecord keys.encKey nc own w)) (nc + 1) true none (length_rekeyWire built)
  obtain ⟨log₂, received, built₂, accepted₂⟩ := rekeyStep_received lib b psk own log₁ true genuine len key ctr
  refine ⟨log₂, w, ?_, built, built₂.trans built₁, ?_⟩
  · exact (rekeyRun_cons offered).trans ((rekeyRun_cons sent).trans
      ((rekeyRun_cons received).trans (rekeyStep_mixed derived nc2 ns)))
  · rw [accepted₂, accepted₁]
    rfl

variable (b psk own) in
theorem rekeyRun_responder (genuine : f.Genuine) (len : f.frame.payload.length = 32) (key : f.key = keys.decKey)
    (ctr : f.ctr = nc) (derived : ecdhDerive lib own.priv (load 32 f.frame.payload) = some sh) (nc2 ns : Block) :
    ∃ log w, rekeyRun lib b psk keys (Rekey.start false nc) Log.empty (responderEvs own f.wire nc2 ns) =
        some (.done (rekeyKeys lib false psk sh nc2 ns), log) ∧
      frameBuild b frameRekey flagNone own.pub.toList (nc + 1) keys.encKey = some w ∧
      log.built = [rekeyRecord keys.encKey (nc + 1) own w] ∧ log.accepted = [f] := by
  have listens : rekeyStep lib b psk keys (Rekey.start false nc) Log.empty (.keygen (some own)) =
      some (.running ⟨false, nc, .recv own []⟩, Log.empty) := rfl
  obtain ⟨log₁, received, built₁, accepted₁⟩ := rekeyStep_received lib b psk own Log.empty false genuine len key ctr
  obtain ⟨w, built, run⟩ := rekeyBuild_running b keys ⟨false, nc + 1, .recv own []⟩ own (some (load 32 f.frame.payload)) log₁
  rw [if_neg Bool.false_ne_true, run] at received
  obtain ⟨log₂, sent, built₂, accepted₂⟩ := rekeyStep_sent lib b psk keys own
    (log₁.build (rekeyRecord keys.encKey (nc + 1) own w)) (nc + 1 + 1) false (some (load 32 f.frame.payload))
    (length_rekeyWire built)
  refine ⟨log₂, w, ?_, built, ?_, accepted₂.trans accepted₁⟩
  · exact (rekeyRun_cons listens).trans ((rekeyRun_cons received).trans
      ((rekeyRun_cons sent).trans (rekeyStep_mixed derived nc2 ns)))
  · rw [built₂, Log.build, built₁]
    rfl

end

/-! ### The two ends -/

/-- Whatever answers the initiator gets, if it returns 0 after frames of the peer only, then these are REKEY
    frames of the peer's call. -/
def RekeyCall.TakesOnly (lib : OpenSsl) (i : RekeyCall) (peer answers : List FrameRec) : Prop :=
  ∀ evs k log, RekeyCall.run lib true { i with evs := evs } = some (.done k, log) → (∀ f ∈ log.accepted, f ∈ peer) →
    ∀ f ∈ log.accepted, f.frame.type = frameRekey ∧ f ∈ answers

/-- What the initiator can take for an answer. -/
structure Answers (lib : OpenSsl) (i : RekeyCall) (f : FrameRec) : Prop where
  key : f.key = i.keys.decKey
  ctr : f.ctr = i.nc + 1
  length : f.frame.payload.length = 32
  point : ∃ priv sh, ecdhDerive lib priv (load 32 f.frame.payload) = some sh

theorem takesOnly_iff {lib : OpenSsl} {i : RekeyCall} {peer answers : List FrameRec} (genuine : ∀ f ∈ peer, f.Genuine)
    (rekeys : ∀ f ∈ answers, f.frame.type = frameRekey) :
    i.TakesOnly lib peer answers ↔ ∀ f ∈ peer, Answers lib i f → f ∈ answers := by
  constructor
  -- A frame that could be taken for the answer is taken by an initiator that waits for it.
  · intro only f member ans
    obtain ⟨priv, sh, derived⟩ := ans.point
    let own : KeyPair := ⟨priv, Word.zero 32⟩
    let zero := Word.zero 16
    obtain ⟨log, w, run, _, _, accepted⟩ := rekeyRun_initiator i.b i.psk own (genuine f member) ans.length ans.key ans.ctr
      derived zero zero
    have isF : ∀ g ∈ log.accepted, g = f := fun g h => List.mem_singleton.mp (accepted ▸ h)
    exact (only (initiatorEvs own f.wire zero zero) _ log run (fun g h => isF g h ▸ member) f
      (accepted ▸ List.mem_singleton_self f)).2
  · intro only evs k log run authentic f member
    obtain ⟨own, raw, g, nc2, ns, fin⟩ := RekeyCall.finishes run
    obtain ⟨rb, length, parsed, accepted⟩ := fin.accepted
    obtain rfl := List.mem_singleton.mp (accepted ▸ member)
    have plen : g.payload.length = 32 := by
      have built := (length_frameBuild (frameBuild_of_frameParse (b := i.b) parsed)).2
      rw [length] at built
      simp only [rekeyWireLen] at built
      omega
    have found := only _ (authentic _ member) ⟨rfl, rfl, plen, own.priv, _, congrArg (Option.map _) fin.shared⟩
    exact ⟨rekeys _ found, found⟩

/-- Two calls that return 0 for the same exchange agree, whatever the hash is, exactly if they have the same
    PSK and draw the same random bytes; and the initiator takes nothing but the peer's answer exactly if
    the peer has built no other frame that could be taken for one. -/
theorem rekey_agreement (lib : OpenSsl) (i r : RekeyCall) (peer : List FrameRec) (genuine : ∀ f ∈ peer, f.Genuine)
    (dh : ∀ a b, .keygen (some a) ∈ i.evs → .keygen (some b) ∈ r.evs → lib.x25519 a.priv b.pub = lib.x25519 b.priv a.pub) :
    (∀ kI kR logI logR, i.run lib true = some (.done kI, logI) → r.run lib false = some (.done kR, logR) →
      logR.accepted = logI.built → logI.accepted = logR.built →
      (i.AgreesWith lib r ↔ i.psk = r.psk ∧ i.draws = r.draws)) ∧
    (∀ res logR, r.run lib false = some (res, logR) →
      (i.TakesOnly lib peer logR.built ↔ ∀ f ∈ peer, Answers lib i f → f ∈ logR.built)) := by
  refine ⟨fun kI kR logI logR hI hR there back => agreesWith_iff hI hR there back dh, fun res logR hR => ?_⟩
  exact takesOnly_iff genuine (rekeyRun_built (fun f member => absurd member List.not_mem_nil) hR)

/-! ### The session of `alice` and `bob` -/

def aliceBobPsk : Octets := (tunnelInit aliceKeys.encKey aliceKeys.decKey).psk

def fill (x : UInt8) : Block := List.Vector.replicate 16 x

/-- `aliceBobSsl` with the digests of two re-keys, after which each end has drawn its own random bytes. -/
def rekeySsl : OpenSsl :=
  { aliceBobSsl with
    sha256 := fun l =>
      let s := aliceBobPsk ++ aliceBobHash.toList
      if l = s ++ (fill 0x11).toList ++ (fill 0x22).toList then
        word32 0x672a7b808feaa4108c5b1dbe05530bb3c9ab5dd7aa0a1455eb90afbc29838a9f
      else if l = s ++ (fill 0x33).toList ++ (fill 0x44).toList then
        word32 0x94a3aeb6ff3c7ccf63115a4db06bf576829a4ac2c37f770ec6b79e6a39675749
      else aliceBobSsl.sha256 l }

def frameRec (key : Block) (ctr : UInt64) (f : Frame) : FrameRec :=
  ⟨key, ctr, f, (frameBuild .pureC f.type f.flags f.payload ctr key).getD []⟩

theorem genuine_frameRec {key : Block} {ctr : UInt64} {f : Frame} (h : f.payload.length ≤ frameMaxPayload) :
    (frameRec key ctr f).Genuine := by
  refine ⟨.pureC, ?_⟩
  simp only [frameRec]
  rw [frameBuild_of_le h]
  rfl

def aliceOffer : FrameRec := frameRec aliceKeys.encKey 1 ⟨frameRekey, flagNone, alice.pub.toList⟩
def bobAnswer : FrameRec := frameRec bobKeys.encKey 2 ⟨frameRekey, flagNone, bob.pub.toList⟩

def aliceCall : RekeyCall := ⟨.pureC, aliceBobPsk, aliceKeys, 1, initiatorEvs alice bobAnswer.wire (fill 0x11) (fill 0x22)⟩

def bobCall (nc2 ns : Block) : RekeyCall := ⟨.pureC, aliceBobPsk, bobKeys, 1, responderEvs bob aliceOffer.wire nc2 ns⟩

theorem frameRec_eq {key : Block} {ctr : UInt64} {own : KeyPair} {w : Octets}
    (h : frameBuild .pureC frameRekey flagNone own.pub.toList ctr key = some w) :
    frameRec key ctr ⟨frameRekey, flagNone, own.pub.toList⟩ = rekeyRecord key ctr own w := by
  simp only [frameRec, rekeyRecord]
  rw [h]
  rfl

theorem genuine_rekey (key : Block) (ctr : UInt64) (own : KeyPair) :
    (frameRec key ctr ⟨frameRekey, flagNone, own.pub.toList⟩).Genuine :=
  genuine_frameRec (by simp [frameMaxPayload])

theorem aliceCall_done : ∃ log, aliceCall.run rekeySsl true =
      some (.done (rekeyKeys rekeySsl true aliceBobPsk aliceBobHash (fill 0x11) (fill 0x22)), log) ∧
    log.built = [aliceOffer] ∧ log.accepted = [bobAnswer] := by
  have derived : ecdhDerive rekeySsl alice.priv (load 32 bob.pub.toList) = some aliceBobHash := by decide
  obtain ⟨log, w, run, offer, built, accepted⟩ := rekeyRun_initiator .pureC aliceBobPsk alice
    (genuine_rekey aliceKeys.decKey (1 + 1) bob) bob.pub.toList_length rfl rfl derived (fill 0x11) (fill 0x22)
  exact ⟨log, run, built.trans (congrArg (fun r => [r]) (frameRec_eq offer).symm), accepted⟩

theorem bobCall_done (nc2 ns : Block) : ∃ log, (bobCall nc2 ns).run rekeySsl false =
      some (.done (rekeyKeys rekeySsl false aliceBobPsk aliceBobHash nc2 ns), log) ∧
    log.built = [bobAnswer] ∧ log.accepted = [aliceOffer] := by
  have derived : ecdhDerive rekeySsl bob.priv (load 32 alice.pub.toList) = some aliceBobHash := by decide
  obtain ⟨log, w, run, offer, built, accepted⟩ := rekeyRun_responder .pureC aliceBobPsk bob
    (genuine_rekey bobKeys.decKey 1 alice) alice.pub.toList_length rfl rfl derived nc2 ns
  exact ⟨log, run, built.trans (congrArg (fun r => [r]) (frameRec_eq offer).symm), accepted⟩

/-- The two ends return 0 for the same exchange, with different keys; and the initiator returns 0 after a
    DATA frame of the peer. -/
theorem rekey_ends_disagree :
    (∃ kI kR logI logR, aliceCall.run rekeySsl true = some (.done kI, logI) ∧
      (bobCall (fill 0x33) (fill 0x44)).run rekeySsl false = some (.done kR, logR) ∧
      logR.accepted = logI.built ∧ logI.accepted = logR.built ∧ kI.encKey ≠ kR.decKey ∧ kI.decKey ≠ kR.encKey) ∧
    ∃ evs k log f, RekeyCall.run rekeySsl true { aliceCall with evs := evs } = some (.done k, log) ∧
      f.Genuine ∧ log.accepted = [f] ∧ f.frame.type = frameData := by
  constructor
  · obtain ⟨logI, runI, builtI, acceptedI⟩ := aliceCall_done
    obtain ⟨logR, runR, builtR, acceptedR⟩ := bobCall_done (fill 0x33) (fill 0x44)
    exact ⟨_, _, logI, logR, runI, runR, acceptedR.trans builtI.symm, acceptedI.trans builtR.symm, by decide, by decide⟩
  · have derived : ecdhDerive rekeySsl alice.priv (load 32 bob.pub.toList) = some aliceBobHash := by decide
    have genuine : (frameRec aliceKeys.decKey (1 + 1) ⟨frameData, flagNone, bob.pub.toList⟩).Genuine :=
      genuine_frameRec (by simp [frameMaxPayload])
    obtain ⟨log, w, run, _, _, accepted⟩ := rekeyRun_initiator .pureC aliceBobPsk alice genuine bob.pub.toList_length
      rfl rfl derived (fill 0x11) (fill 0x22)
    exact ⟨_, _, log, _, run, genuine, accepted, rfl⟩

/-- With the same random bytes at both ends, and no other frame of the peer, all is well. -/
theorem rekey_agreement_alice_bob :
    aliceCall.AgreesWith rekeySsl (bobCall (fill 0x11) (fill 0x22)) ∧ aliceCall.TakesOnly rekeySsl [bobAnswer] [bobAnswer] := by
  obtain ⟨logI, runI, builtI, acceptedI⟩ := aliceCall_done
  obtain ⟨logR, runR, builtR, acceptedR⟩ := bobCall_done (fill 0x11) (fill 0x22)
  obtain ⟨agree, takes⟩ := rekey_agreement rekeySsl aliceCall (bobCall (fill 0x11) (fill 0x22)) [bobAnswer]
    (fun f member => List.mem_singleton.mp member ▸ genuine_rekey bobKeys.encKey 2 bob) fun a b ha hb => by
      obtain rfl : a = alice := by simpa [aliceCall, initiatorEvs] using ha
      obtain rfl : b = bob := by simpa [bobCall, responderEvs] using hb
      decide
  refine ⟨(agree _ _ logI logR runI runR (acceptedR.trans builtI.symm) (acceptedI.trans builtR.symm)).mpr ⟨rfl, rfl⟩, ?_⟩
  have := (takes _ logR runR).mpr fun f member _ => builtR ▸ member
  rwa [builtR] at this

end AegisTunnel
