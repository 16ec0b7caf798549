import AegisTunnel.Handshake
import AegisTunnel.Theorems.Frame

/-! Agreement of the handshake: when the messages arrive, both sides end with the same keys crossed over
    and the client accepts the server's confirmation. -/

namespace AegisTunnel
open Octets

/-! ### Delivery -/

/-- Every answer of `send` takes some bytes or is `EINTR`. -/
def TakesBytes (q : List Sent) : Prop := ∀ k ∈ q, k = .eintr ∨ ∃ n, k = .took (n + 1)

/-- The bytes that the answers of `poll` and `recv` bring in, unless a timeout, a hang-up, an error or
    the end of the stream is among them. -/
def arriving : List PollRecv → Option Octets
  | [] => some []
  | .ready (.data b bs) :: q => (arriving q).map (b :: bs ++ ·)
  | .ready .eintr :: q => arriving q
  | .pollEintr :: q => arriving q
  | _ :: _ => none

theorem sendLoop_takes (pending : Octets) {q : List Sent} (h : TakesBytes q) :
    ∃ q', sendLoop pending q = (some (), pending, q') ∧ TakesBytes q' := by
  induction q generalizing pending with
  | nil => exact ⟨[], rfl, h⟩
  | cons k q ih =>
    have hq : TakesBytes q := fun k' hk' => h k' (List.mem_cons_of_mem _ hk')
    cases pending with
    | nil => exact ⟨k :: q, rfl, h⟩
    | cons c cs =>
      rcases h k (List.mem_cons_self ..) with rfl | ⟨n, rfl⟩
      · obtain ⟨q', hsend, hq'⟩ := ih (c :: cs) hq
        refine ⟨q', ?_, hq'⟩
        simp [sendLoop, sendAllRound, hsend, Sent.bytes]
      · obtain ⟨q', hsend, hq'⟩ := ih ((c :: cs).drop (n + 1)) hq
        refine ⟨q', ?_, hq'⟩
        rw [sendLoop, if_neg (by simp)]
        simp only [sendAllRound, hsend, Sent.bytes, List.take_append_drop]

theorem sendAll_takes {w : World} (m : Octets) (h : TakesBytes w.sends) :
    ∃ q, sendAll m w = (some (), { w with outbox := w.outbox ++ m, sends := q }) ∧ TakesBytes q := by
  obtain ⟨q, hsend, hq⟩ := sendLoop_takes m h
  exact ⟨q, by simp only [sendAll, hsend], hq⟩

/-- What arrives is received in order, however it is cut; what follows stays for the next call. -/
theorem recvLoop_arriving {n : Nat} (got m : Octets) {r : Octets} {q : List PollRecv} (hn : got.length + m.length = n)
    (h : arriving q = some (m ++ r)) : ∃ q', recvLoop n got q = (some (got ++ m), q') ∧ arriving q' = some r := by
  induction q generalizing got m with
  | nil =>
    obtain ⟨rfl, rfl⟩ : m = [] ∧ r = [] := by simpa [arriving] using h
    exact ⟨[], by simp [recvLoop, ← hn], rfl⟩
  | cons k q ih =>
    by_cases hlt : got.length < n
    · rw [recvLoop, if_pos hlt]
      have hspace : n - got.length = m.length := by omega
      cases k with
      | pollEintr => simpa [recvAllRound, PollRecv.left] using ih got m hn h
      | pollError => cases h
      | timeout => cases h
      | hangup => cases h
      | ready k =>
        cases k with
        | eintr => simpa [recvAllRound, PollRecv.left] using ih got m hn h
        | eof => cases h
        | again => cases h
        | error => cases h
        | data c cs =>
          obtain ⟨a, ha, happ⟩ : ∃ a, arriving q = some a ∧ (c :: cs) ++ a = m ++ r := by
            simpa [arriving] using h
          simp only [recvAllRound, PollRecv.left, hspace]
          -- The chunk lies inside the message, or it ends it and its own end stays in the queue.
          rcases List.append_eq_append_iff.mp happ with ⟨m', rfl, rfl⟩ | ⟨l, hc, rfl⟩
          · have hleft : (c :: cs).drop ((c :: cs) ++ m').length = [] := by
              rw [List.drop_eq_nil_iff, List.length_append]
              omega
            have htake : (c :: cs).take ((c :: cs) ++ m').length = c :: cs := by
              rw [List.take_of_length_le]
              rw [List.length_append]
              omega
            rw [hleft, htake]
            obtain ⟨q', hrecv, hq'⟩ := ih (got ++ (c :: cs)) m'
              (by rw [← hn, List.length_append, List.length_append]; omega) ha
            exact ⟨q', by rw [hrecv, List.append_assoc], hq'⟩
          · rw [hc, List.drop_left, List.take_left]
            cases l with
            | nil =>
              obtain ⟨q', hrecv, hq'⟩ := ih (got ++ m) [] (by simpa using hn) ha
              rw [List.append_nil] at hrecv
              exact ⟨q', hrecv, hq'⟩
            | cons d ds => exact ⟨_, rfl, by simp [arriving, ha]⟩
    · have hm : m = [] := List.length_eq_zero_iff.mp (by omega)
      subst hm
      exact ⟨k :: q, by simp [recvLoop, hlt], h⟩

theorem recvAll_arriving {n : Nat} {w : World} {m r : Octets} (hn : m.length = n)
    (h : arriving w.inbox = some (m ++ r)) :
    ∃ q, recvAll n w = (some m, { w with inbox := q }) ∧ arriving q = some r := by
  obtain ⟨q, hrecv, hq⟩ := recvLoop_arriving [] m (by simpa using hn) h
  exact ⟨q, by simp only [recvAll, hrecv, List.nil_append], hq⟩

/-! ### Timestamps -/

@[simp] theorem length_tsBytes (ts : Int64) : (tsBytes ts).length = 8 := rfl

def lowBytes (t : UInt64) : Nat → Octets
  | 0 => []
  | k + 1 => (t >>> (UInt64.ofNat k * 8)).toUInt8 :: lowBytes t k

theorem toNat_shl_or (x : UInt64) (y : UInt8) (h : x.toNat < 2 ^ 56) :
    ((x <<< 8) ||| y.toUInt64).toNat = x.toNat * 256 + y.toNat := by
  have hy := y.toNat_lt
  have h8 : (8 : UInt64).toNat % 64 = 8 := rfl
  rw [UInt64.toNat_or, UInt64.toNat_shiftLeft, h8, UInt8.toNat_toUInt64, Nat.shiftLeft_eq,
    Nat.mod_eq_of_lt (by omega), ← Nat.shiftLeft_eq, ← Nat.shiftLeft_add_eq_or_of_lt hy, Nat.shiftLeft_eq]

theorem toNat_byte (t : UInt64) (k : Nat) (hk : k < 8) :
    (t >>> (UInt64.ofNat k * 8)).toUInt8.toNat = t.toNat / 256 ^ k % 256 := by
  have hshift : (UInt64.ofNat k * 8).toNat % 64 = 8 * k := by
    rw [UInt64.toNat_mul, UInt64.toNat_ofNat']
    show k % 2 ^ 64 * 8 % 2 ^ 64 % 64 = 8 * k
    omega
  rw [UInt64.toNat_toUInt8, UInt64.toNat_shiftRight, hshift, Nat.shiftRight_eq_div_pow, Nat.pow_mul]

theorem foldl_lowBytes (t : UInt64) (k : Nat) (hk : k ≤ 8) (acc : UInt64) (hacc : acc.toNat = t.toNat / 256 ^ k) :
    (lowBytes t k).foldl (fun (tb : UInt64) (x : UInt8) => (tb <<< 8) ||| x.toUInt64) acc = t := by
  -- `acc` holds the bytes above the `k` low ones; each round moves one byte into it.
  induction k generalizing acc with
  | zero =>
    rw [Nat.pow_zero, Nat.div_one] at hacc
    exact UInt64.toNat_inj.mp hacc
  | succ k ih =>
    have hstep : acc.toNat = t.toNat / 256 ^ k / 256 := by rw [hacc, Nat.pow_succ, Nat.div_div_eq_div_mul]
    have hle : t.toNat / 256 ^ k ≤ t.toNat := Nat.div_le_self _ _
    have hlt := t.toNat_lt
    apply ih (by omega)
    rw [toNat_shl_or _ _ (by omega), toNat_byte t k hk, hstep]
    omega

theorem bytesTs_tsBytes (ts : Int64) : bytesTs (tsBytes ts) = ts := by
  have hlow : tsBytes ts = lowBytes ts.toUInt64 8 := rfl
  have hzero : (0 : UInt64).toNat = ts.toUInt64.toNat / 256 ^ 8 := by
    have := ts.toUInt64.toNat_lt
    rw [Nat.div_eq_of_lt (by omega)]
    rfl
  rw [bytesTs, hlow, foldl_lowBytes ts.toUInt64 8 (by decide) 0 hzero]
  rfl

theorem ecdhKeygen_some {w : World} {e : KeyPair} {ks : List (Option KeyPair)} (h : w.keygens = some e :: ks) :
    ecdhKeygen w = (some e, { w with keygens := ks }) := by
  simp only [ecdhKeygen, h]

theorem timestampNow_some {w : World} {n : Int64} {cl : List Int64} (h : w.clock = n :: cl) :
    timestampNow w = (some n, { w with clock := cl }) := by
  simp only [timestampNow, h]

theorem isReplay_new {w : World} {ts : Int64} {epk : Word 32} (h : isReplayIn w.replay ts epk = false) :
    ∃ c, isReplay ts epk w = (some false, { w with replay := c }) := by
  unfold isReplay
  rw [if_neg (by rw [h]; exact Bool.false_ne_true)]
  exact ⟨_, rfl⟩

/-- A distance within the window is computed without overflow. -/
theorem window_dist {n ts : Int64} (h : |n.toInt - ts.toInt| ≤ 60) :
    ¬ (if n > ts then n - ts else ts - n) > handshakeWindow := by
  obtain ⟨hlow, hhigh⟩ := abs_le.mp h
  have h60 : handshakeWindow.toInt = 60 := rfl
  rw [gt_iff_lt, Int64.lt_iff_toInt_lt, h60]
  split
  · rw [Int64.toInt_sub, Int.bmod_eq_of_le (by omega) (by omega)]
    omega
  · rw [Int64.toInt_sub, Int.bmod_eq_of_le (by omega) (by omega)]
    omega

theorem checkTs_ok {w : World} {n ts : Int64} {cl : List Int64} {epk : Word 32} (hclock : w.clock = n :: cl) (hn : 0 ≤ n)
    (hwindow : |n.toInt - ts.toInt| ≤ 60) (hnew : isReplayIn w.replay ts epk = false) :
    ∃ c, checkTs ts epk w = (some (), { w with clock := cl, replay := c }) := by
  have hnow : timestampNow w = (some n, { w with clock := cl }) :=
    timestampNow_some hclock
  obtain ⟨c, hseen⟩ := isReplay_new (w := { w with clock := cl }) hnew
  refine ⟨c, ?_⟩
  rw [checkTs, Run.bind_some hnow, if_neg (Int64.not_lt.mpr hn)]
  rw [if_neg (window_dist hwindow), Run.bind_some hseen]
  rfl

/-! ### Messages -/

section Messages
variable {b : Backend} {epk : Word 32} {ts : Int64} {key : Block} {w : World} {r : Octets}

def asymBody (b : Backend) (epk : Word 32) (ts : Int64) (key : Block) : Octets :=
  (aegisEncrypt b (tsBytes ts) (asymHeader ++ epk.toList) (Word.zero 16) key).1 ++
    (aegisEncrypt b (tsBytes ts) (asymHeader ++ epk.toList) (Word.zero 16) key).2.toList

theorem asymWire_eq : asymWire b epk ts key = (asymHeader ++ epk.toList) ++ asymBody b epk ts key := by
  rw [asymWire, asymBody, List.append_assoc]

theorem asymHdr_arriving (h : arriving w.inbox = some ((asymHeader ++ epk.toList) ++ r)) :
    ∃ q, asymHdr w = (some epk, { w with inbox := q }) ∧ arriving q = some r := by
  obtain ⟨q, hrecv, hq⟩ := recvAll_arriving (n := 36) (by simp [asymHeader]) h
  refine ⟨q, ?_, hq⟩
  rw [asymHdr, Run.bind_some hrecv, Run.pure_apply, List.drop_left' (by rfl), load_toList]

theorem length_asymBody (b : Backend) (epk : Word 32) (ts : Int64) (key : Block) : (asymBody b epk ts key).length = 24 := by
  simp [asymBody]

theorem asymTs_eq {ct : Octets} {w' : World} (h : recvAll 24 w = (some ct, w')) :
    asymTs b epk key w = (let r := aegisDecrypt b (ct.take 8) (asymHeader ++ epk.toList) (Word.zero 16) key (load 16 (ct.drop 8))
      if r.ret ≠ 0 then none else some (bytesTs r.dst), w') := by
  rw [asymTs, Run.bind_some h]
  dsimp only
  split <;> rfl

theorem asymTs_arriving (b' : Backend) (h : arriving w.inbox = some (asymBody b epk ts key ++ r)) :
    ∃ q, asymTs b' epk key w = (some ts, { w with inbox := q }) ∧ arriving q = some r := by
  have hct : (aegisPureEncrypt (tsBytes ts) (asymHeader ++ epk.toList) (Word.zero 16) key).1.length = 8 := by
    rw [length_aegisPureEncrypt, length_tsBytes]
  simp only [asymBody, aegisEncrypt_eq] at h
  obtain ⟨q, hrecv, hq⟩ := recvAll_arriving (n := 24) (by simp) h
  refine ⟨q, ?_, hq⟩
  rw [asymTs_eq hrecv, List.take_left' hct, List.drop_left' hct, load_toList, aegisDecrypt_eq,
    aegisPureDecrypt_encrypt]
  simp [bytesTs_tsBytes]

end Messages

/-- The buffer after a call of `ecdh_derive`, and what is left of the bytes that buffers held before. -/
def derived (lib : OpenSsl) (k p : Word 32) (stack : List (Word 32)) : Word 32 × List (Word 32) :=
  match ecdhDerive lib k p, stack with
  | some s, stack => (s, stack)
  | none, [] => (Word.zero 32, [])
  | none, j :: js => (j, js)

theorem deriveInto_eq (lib : OpenSsl) (k p : Word 32) (w : World) :
    deriveInto lib k p w = (some (derived lib k p w.stack).1, { w with stack := (derived lib k p w.stack).2 }) := by
  cases h : ecdhDerive lib k p with
  | some s => simp only [deriveInto, derived, h]
  | none =>
    cases hstack : w.stack with
    | nil =>
      simp only [deriveInto, derived, h, hstack]
      rw [← hstack]
    | cons j js => simp only [deriveInto, derived, h, hstack]

theorem deriveInto_some {lib : OpenSsl} {k p s : Word 32} (h : ecdhDerive lib k p = some s) (w : World) :
    deriveInto lib k p w = (some s, w) := by
  rw [deriveInto, h]

/-- After a call of `ecdh_derive` the buffer holds `s`, and the bytes that other buffers hold are as before. -/
def Fills (lib : OpenSsl) (stack : List (Word 32)) (k p s : Word 32) : Prop := derived lib k p stack = (s, stack)

theorem Fills.of_derive {lib : OpenSsl} {k p s : Word 32} (h : ecdhDerive lib k p = some s) (stack : List (Word 32)) :
    Fills lib stack k p s := by
  simp only [Fills, derived, h]

theorem Fills.deriveInto {lib : OpenSsl} {stack : List (Word 32)} {k p s : Word 32} (h : Fills lib stack k p s) (w : World)
    (hw : w.stack = stack) : deriveInto lib k p w = (some s, w) := by
  subst hw
  rw [deriveInto_eq, h]

/-! ### Agreement -/

/-- Two key pairs give the same shared secret at either end. -/
def Agree (lib : OpenSsl) (k l : KeyPair) : Prop :=
  ∃ s, lib.x25519 k.priv l.pub = some s ∧ lib.x25519 l.priv k.pub = some s

theorem Agree.derive {lib : OpenSsl} {k l : KeyPair} (h : Agree lib k l) :
    ∃ s, ecdhDerive lib k.priv l.pub = some s ∧ ecdhDerive lib l.priv k.pub = some s := by
  obtain ⟨s, hk, hl⟩ := h
  exact ⟨lib.sha256 s.toList, by rw [ecdhDerive, hk]; rfl, by rw [ecdhDerive, hl]; rfl⟩

/-- A client and a server that can complete a handshake: their ephemeral keys `ce` and `se`, the client's
    timestamp `tc` and the server's `ts`, and the clocks `nc` and `ns` when the other's is checked. -/
structure Meeting (lib : OpenSsl) (client server ce se : KeyPair) (tc nc ns ts : Int64) (wc ws : World) : Prop where
  clientKeygen : ∃ ks, wc.keygens = some ce :: ks
  serverKeygen : ∃ ks, ws.keygens = some se :: ks
  clientClock : ∃ cl, wc.clock = tc :: nc :: cl
  serverClock : ∃ cl, ws.clock = ns :: ts :: cl
  clientNow : 0 ≤ nc
  serverNow : 0 ≤ ns
  serverTs : 0 ≤ ts
  clientWindow : |nc.toInt - ts.toInt| ≤ 60
  serverWindow : |ns.toInt - tc.toInt| ≤ 60
  clientFresh : isReplayIn wc.replay ts se.pub = false
  serverFresh : isReplayIn ws.replay tc ce.pub = false
  clientSends : TakesBytes wc.sends
  serverSends : TakesBytes ws.sends
  ephStatic : Agree lib ce server
  staticStatic : Agree lib client server
  staticEph : Agree lib client se
  clientSilent : wc.outbox = []
  serverSilent : ws.outbox = []

/-! ### What is sent -/

section Keeps

theorem keeps_recvAll (n : Nat) : Run.Keeps World.outbox (recvAll n) := fun _ => rfl

theorem keeps_timestampNow : Run.Keeps World.outbox timestampNow := fun w => by
  unfold timestampNow
  split <;> rfl

theorem keeps_deriveInto (lib : OpenSsl) (k p : Word 32) : Run.Keeps World.outbox (deriveInto lib k p) := fun w => by
  unfold deriveInto
  split <;> rfl

theorem keeps_isReplay (ts : Int64) (epk : Word 32) : Run.Keeps World.outbox (isReplay ts epk) := fun w => by
  unfold isReplay
  split <;> rfl

theorem keeps_asymHdr : Run.Keeps World.outbox asymHdr :=
  Run.keeps_bind (keeps_recvAll 36) fun _ => Run.keeps_pure _

theorem keeps_asymTs (b : Backend) (epk : Word 32) (key : Block) : Run.Keeps World.outbox (asymTs b epk key) :=
  Run.keeps_bind (keeps_recvAll 24) fun _ => Run.keeps_ite Run.keeps_fail (Run.keeps_pure _)

theorem keeps_checkTs (ts : Int64) (epk : Word 32) : Run.Keeps World.outbox (checkTs ts epk) := by
  refine Run.keeps_bind keeps_timestampNow fun n => Run.keeps_ite Run.keeps_fail ?_
  refine Run.keeps_ite Run.keeps_fail (Run.keeps_bind (keeps_isReplay ts epk) fun seen => ?_)
  exact Run.keeps_ite Run.keeps_fail (Run.keeps_pure _)

end Keeps

/-- `handshake_client` after its message is sent. -/
def clientFinish (lib : OpenSsl) (b : Backend) (e : KeyPair) (ourPriv peerPub : Word 32) : Hs SessionKeys := do
  let repk ← asymHdr
  let ee ← deriveInto lib e.priv peerPub
  let es ← deriveInto lib ourPriv peerPub
  let se ← deriveInto lib ourPriv repk
  let rts ← asymTs b repk (asymResp lib (asymShared lib ee es se))
  checkTs rts repk
  pure (asymSess lib (asymShared lib ee es se) e.pub repk)

theorem keeps_clientFinish (lib : OpenSsl) (b : Backend) (e : KeyPair) (k p : Word 32) :
    Run.Keeps World.outbox (clientFinish lib b e k p) := by
  refine Run.keeps_bind keeps_asymHdr fun repk => Run.keeps_bind (keeps_deriveInto lib _ _) fun ee => ?_
  refine Run.keeps_bind (keeps_deriveInto lib _ _) fun es => Run.keeps_bind (keeps_deriveInto lib _ _) fun se => ?_
  refine Run.keeps_bind (keeps_asymTs b _ _) fun rts => Run.keeps_bind (keeps_checkTs _ _) fun _ => ?_
  exact Run.keeps_pure _

section Sides
variable {lib : OpenSsl} {b b' : Backend} {e : KeyPair} {k p ee es se : Word 32} {w : World} {ks : List (Option KeyPair)}
  {cl : List Int64}

theorem handshakeClient_start {tc : Int64} (hkeygen : w.keygens = some e :: ks) (hclock : w.clock = tc :: cl)
    (hsends : TakesBytes w.sends) (hee : Fills lib w.stack e.priv p ee) (hes : Fills lib w.stack k p es) :
    ∃ q, handshakeClient lib b k p w = clientFinish lib b e k p
        { w with
          keygens := ks
          clock := cl
          outbox := w.outbox ++ asymWire b e.pub tc (initKey lib ee es)
          sends := q } ∧ TakesBytes q := by
  have hgen : ecdhKeygen w = (some e, { w with keygens := ks }) := ecdhKeygen_some hkeygen
  have hik : asymInitKey lib e.priv k p { w with keygens := ks } =
      (some (initKey lib ee es), { w with keygens := ks }) := by
    rw [asymInitKey, Run.bind_some (hee.deriveInto { w with keygens := ks } rfl),
      Run.bind_some (hes.deriveInto { w with keygens := ks } rfl)]
    rfl
  have hnow : timestampNow { w with keygens := ks } = (some tc, { w with keygens := ks, clock := cl }) :=
    timestampNow_some hclock
  obtain ⟨q, hsend, hq⟩ := sendAll_takes (w := { w with keygens := ks, clock := cl })
    (asymWire b e.pub tc (initKey lib ee es)) hsends
  refine ⟨q, ?_, hq⟩
  rw [handshakeClient, Run.bind_some hgen, Run.bind_some hik, Run.bind_some hnow]
  exact Run.bind_some hsend

theorem clientFinish_arriving {repk : Word 32} {rts nc : Int64} {r : Octets}
    (hin : arriving w.inbox = some (asymWire b' repk rts (asymResp lib (asymShared lib ee es se)) ++ r))
    (hee : Fills lib w.stack e.priv p ee) (hes : Fills lib w.stack k p es) (hse : Fills lib w.stack k repk se)
    (hclock : w.clock = nc :: cl) (hnow : 0 ≤ nc)
    (hwindow : |nc.toInt - rts.toInt| ≤ 60) (hnew : isReplayIn w.replay rts repk = false) :
    ∃ w', clientFinish lib b e k p w = (some (asymSess lib (asymShared lib ee es se) e.pub repk), w') ∧
      arriving w'.inbox = some r := by
  rw [asymWire_eq, List.append_assoc] at hin
  obtain ⟨q, hhdr, hq⟩ := asymHdr_arriving hin
  obtain ⟨q', hts, hq'⟩ := asymTs_arriving b (w := { w with inbox := q }) hq
  obtain ⟨c, hcheck⟩ := checkTs_ok (w := { w with inbox := q' }) hclock hnow hwindow hnew
  refine ⟨{ w with inbox := q', clock := cl, replay := c }, ?_, hq'⟩
  rw [clientFinish, Run.bind_some hhdr, Run.bind_some (hee.deriveInto { w with inbox := q } rfl),
    Run.bind_some (hes.deriveInto { w with inbox := q } rfl), Run.bind_some (hse.deriveInto { w with inbox := q } rfl),
    Run.bind_some hts, Run.bind_some hcheck]
  rfl

theorem handshakeServer_arriving {iepk : Word 32} {its ns ts : Int64} {r : Octets}
    (hin : arriving w.inbox = some (asymWire b' iepk its (initKey lib ee es) ++ r))
    (hee : Fills lib w.stack k iepk ee) (hes : Fills lib w.stack k p es) (hse : Fills lib w.stack e.priv p se)
    (hkeygen : w.keygens = some e :: ks) (hclock : w.clock = ns :: ts :: cl)
    (hnow : 0 ≤ ns) (hts0 : 0 ≤ ts) (hwindow : |ns.toInt - its.toInt| ≤ 60) (hnew : isReplayIn w.replay its iepk = false)
    (hsends : TakesBytes w.sends) :
    ∃ w', handshakeServer lib b k p w =
        (some ⟨(asymSess lib (asymShared lib ee es se) iepk e.pub).decKey,
          (asymSess lib (asymShared lib ee es se) iepk e.pub).encKey⟩, w') ∧
      w'.outbox = w.outbox ++ asymWire b e.pub ts (asymResp lib (asymShared lib ee es se)) ∧ TakesBytes w'.sends := by
  rw [asymWire_eq, List.append_assoc] at hin
  obtain ⟨q, hhdr, hq⟩ := asymHdr_arriving hin
  obtain ⟨q', hts, hq'⟩ := asymTs_arriving b (w := { w with inbox := q }) hq
  obtain ⟨c, hcheck⟩ := checkTs_ok (w := { w with inbox := q' }) hclock hnow hwindow hnew
  have hgen : ecdhKeygen { w with inbox := q', clock := ts :: cl, replay := c } =
      (some e, { w with inbox := q', clock := ts :: cl, replay := c, keygens := ks }) :=
    ecdhKeygen_some hkeygen
  have htime : timestampNow { w with inbox := q', clock := ts :: cl, replay := c, keygens := ks } =
      (some ts, { w with inbox := q', clock := cl, replay := c, keygens := ks }) := rfl
  obtain ⟨qs, hsend, hqs⟩ := sendAll_takes (w := { w with inbox := q', clock := cl, replay := c, keygens := ks })
    (asymWire b e.pub ts (asymResp lib (asymShared lib ee es se))) hsends
  refine ⟨{ w with inbox := q', clock := cl, replay := c, keygens := ks, outbox := _, sends := qs }, ?_, rfl, hqs⟩
  let w₁ : World := { w with inbox := q }
  let w₂ : World := { w with inbox := q', clock := ts :: cl, replay := c, keygens := ks }
  rw [handshakeServer, Run.bind_some hhdr, Run.bind_some (hee.deriveInto w₁ rfl), Run.bind_some (hes.deriveInto w₁ rfl),
    Run.bind_some hts, Run.bind_some hcheck, Run.bind_some hgen, Run.bind_some (hee.deriveInto w₂ rfl),
    Run.bind_some (hes.deriveInto w₂ rfl), Run.bind_some (hse.deriveInto w₂ rfl), Run.bind_some htime]
  refine (Run.bind_some hsend).trans ?_
  rw [if_neg (Int64.not_lt.mpr hts0)]
  rfl

end Sides

/-! ### Key confirmation -/

section Confirm
variable {b b' : Backend} {w : World}

theorem handshakeKeyConfirmServer_takes (k : SessionKeys) (hsends : TakesBytes w.sends) :
    ∃ w' wire, handshakeKeyConfirmServer b k w = (some (), w') ∧ w'.outbox = w.outbox ++ wire ∧
      frameBuild b frameKeyconfirm flagNone [] 0 k.encKey = some wire := by
  obtain ⟨wire, hbuild⟩ : ∃ wire, frameBuild b frameKeyconfirm flagNone [] 0 k.encKey = some wire :=
    ⟨_, frameBuild_of_le (Nat.zero_le _)⟩
  obtain ⟨q, hsend, -⟩ := sendAll_takes wire hsends
  refine ⟨{ w with outbox := w.outbox ++ wire, sends := q }, wire, ?_, rfl, hbuild⟩
  rw [handshakeKeyConfirmServer, hbuild]
  exact hsend

theorem handshakeKeyConfirmClient_arriving {k : SessionKeys} {wire r : Octets}
    (hwire : frameBuild b' frameKeyconfirm flagNone [] 0 k.decKey = some wire)
    (hin : arriving w.inbox = some (wire ++ r)) : ∃ w', handshakeKeyConfirmClient b k w = (some (), w') := by
  obtain ⟨q, hrecv, -⟩ := recvAll_arriving (n := frameHeaderLen + aegisTagLen) (length_frameBuild hwire).2 hin
  refine ⟨{ w with inbox := q }, ?_⟩
  rw [handshakeKeyConfirmClient, Run.bind_some hrecv, frameParse_frameBuild hwire]
  rfl

end Confirm

/-! ### Both sides together -/

/-- A client's connection set-up: the handshake, then the server's confirmation. -/
def clientSetup (lib : OpenSsl) (b : Backend) (ourPriv peerPub : Word 32) : Hs SessionKeys := do
  let k ← handshakeClient lib b ourPriv peerPub
  handshakeKeyConfirmClient b k
  pure k

def serverSetup (lib : OpenSsl) (b : Backend) (ourPriv peerPub : Word 32) : Hs SessionKeys := do
  let k ← handshakeServer lib b ourPriv peerPub
  handshakeKeyConfirmServer b k
  pure k

theorem keeps_keyConfirmClient (b : Backend) (k : SessionKeys) :
    Run.Keeps World.outbox (handshakeKeyConfirmClient b k) := by
  refine Run.keeps_bind (keeps_recvAll _) fun wb => ?_
  split
  · exact Run.keeps_ite (Run.keeps_pure _) Run.keeps_fail
  · exact Run.keeps_fail

theorem clientSetup_outbox (lib : OpenSsl) (b : Backend) (k p : Word 32) (w : World) :
    (clientSetup lib b k p w).2.outbox = (handshakeClient lib b k p w).2.outbox :=
  Run.keeps_after (fun keys => Run.keeps_bind (keeps_keyConfirmClient b keys) fun _ => Run.keeps_pure keys) _ w

namespace Meeting
variable {lib : OpenSsl} {client server ce se : KeyPair} {tc nc ns ts : Int64} {wc ws : World}

theorem client_outbox (meet : Meeting lib client server ce se tc nc ns ts wc ws) (b : Backend) {ee es : Word 32}
    (hee : ecdhDerive lib ce.priv server.pub = some ee) (hes : ecdhDerive lib client.priv server.pub = some es) :
    (handshakeClient lib b client.priv server.pub wc).2.outbox = asymWire b ce.pub tc (initKey lib ee es) := by
  obtain ⟨ks, hkeygen⟩ := meet.clientKeygen
  obtain ⟨cl, hclock⟩ := meet.clientClock
  obtain ⟨q, hstart, -⟩ := handshakeClient_start (b := b) hkeygen hclock meet.clientSends (.of_derive hee _)
    (.of_derive hes _)
  rw [hstart, keeps_clientFinish lib b ce]
  simp [meet.clientSilent]

/-- A server that gets the client's message answers it, and a client that gets this answer has the
    server's keys crossed over. -/
theorem server_ok (meet : Meeting lib client server ce se tc nc ns ts wc ws) (bc bs : Backend) {r : Octets}
    (toServer : arriving ws.inbox = some ((handshakeClient lib bc client.priv server.pub wc).2.outbox ++ r)) :
    ∃ ks ws', handshakeServer lib bs server.priv client.pub ws = (some ks, ws') ∧ TakesBytes ws'.sends ∧
      ∀ r', arriving wc.inbox = some (ws'.outbox ++ r') →
        ∃ kc wc', handshakeClient lib bc client.priv server.pub wc = (some kc, wc') ∧ kc.encKey = ks.decKey ∧
          kc.decKey = ks.encKey ∧ arriving wc'.inbox = some r' := by
  obtain ⟨ee, hce, hsc⟩ := meet.ephStatic.derive
  obtain ⟨es, hcs, hss⟩ := meet.staticStatic.derive
  obtain ⟨sec, hcse, hsec⟩ := meet.staticEph.derive
  obtain ⟨ks, hskeygen⟩ := meet.serverKeygen
  obtain ⟨scl, hsclock⟩ := meet.serverClock
  rw [meet.client_outbox bc hce hcs] at toServer
  obtain ⟨ws', hserver, hout, hsends⟩ := handshakeServer_arriving (b := bs) toServer (.of_derive hsc _)
    (.of_derive hss _) (.of_derive hsec _) hskeygen hsclock meet.serverNow meet.serverTs meet.serverWindow
    meet.serverFresh meet.serverSends
  refine ⟨_, ws', hserver, hsends, fun r' toClient => ?_⟩
  obtain ⟨kc, hckeygen⟩ := meet.clientKeygen
  obtain ⟨ccl, hcclock⟩ := meet.clientClock
  obtain ⟨q, hstart, -⟩ := handshakeClient_start (b := bc) hckeygen hcclock meet.clientSends (.of_derive hce _)
    (.of_derive hcs _)
  rw [hout, meet.serverSilent, List.nil_append] at toClient
  obtain ⟨wc', hclient, hin⟩ := clientFinish_arriving (b := bc)
    (w := { wc with keygens := kc, clock := nc :: ccl, outbox := _, sends := q }) toClient (.of_derive hce _)
    (.of_derive hcs _) (.of_derive hcse _) rfl meet.clientNow meet.clientWindow meet.clientFresh
  exact ⟨_, wc', hstart.trans hclient, rfl, rfl, hin⟩

end Meeting

/-- Agreement of the TCP handshake: when each side's bytes reach the other, however they are cut, both
    sides return 0 with crossed keys, and the client accepts the server's confirmation. -/
theorem handshake_agreement (lib : OpenSsl) (bc bs : Backend) (client server ce se : KeyPair) (tc nc ns ts : Int64)
    (wc ws : World) (meet : Meeting lib client server ce se tc nc ns ts wc ws)
    (toServer : ∃ r, arriving ws.inbox = some ((clientSetup lib bc client.priv server.pub wc).2.outbox ++ r))
    (toClient : ∃ r, arriving wc.inbox = some ((serverSetup lib bs server.priv client.pub ws).2.outbox ++ r)) :
    ∃ kc ks, (handshakeClient lib bc client.priv server.pub wc).1 = some kc ∧
      (handshakeServer lib bs server.priv client.pub ws).1 = some ks ∧
      kc.encKey = ks.decKey ∧ kc.decKey = ks.encKey ∧
      (clientSetup lib bc client.priv server.pub wc).1 = some kc ∧
      (serverSetup lib bs server.priv client.pub ws).1 = some ks := by
  obtain ⟨r, hr⟩ := toServer
  obtain ⟨r', hr'⟩ := toClient
  rw [clientSetup_outbox] at hr
  obtain ⟨ks, ws', hserver, hsends, hclient⟩ := meet.server_ok bc bs hr
  obtain ⟨ws'', wire, hconfirm, hout, hwire⟩ := handshakeKeyConfirmServer_takes (b := bs) ks hsends
  have hsetup : serverSetup lib bs server.priv client.pub ws = (some ks, ws'') := by
    rw [serverSetup, Run.bind_some hserver, Run.bind_some hconfirm, Run.pure_apply]
  rw [hsetup, hout, List.append_assoc] at hr'
  obtain ⟨kc, wc', hdone, henc, hdec, hin⟩ := hclient _ hr'
  rw [← hdec] at hwire
  obtain ⟨wc'', hok⟩ := handshakeKeyConfirmClient_arriving (b := bc) hwire hin
  refine ⟨kc, ks, congrArg Prod.fst hdone, congrArg Prod.fst hserver, henc, hdec, ?_, congrArg Prod.fst hsetup⟩
  rw [clientSetup, Run.bind_some hdone, Run.bind_some hok, Run.pure_apply]

/-! ### An instance

Two key pairs with the values that X25519 and SHA-256 have on them; the client uses `alice` and the server
`bob` both as static and as ephemeral keys. -/

def word32 (n : Nat) : Word 32 := ⟨(List.range 32).map fun i => UInt8.ofNat (n >>> (8 * (31 - i))), by simp⟩

def alice : KeyPair where
  priv := word32 0x0102030405060708090a0b0c0d0e0f101112131415161718191a1b1c1d1e1f20
  pub := word32 0x07a37cbc142093c8b755dc1b10e86cb426374ad16aa853ed0bdfc0b2b86d1c7c

def bob : KeyPair where
  priv := word32 0x2122232425262728292a2b2c2d2e2f303132333435363738393a3b3c3d3e3f40
  pub := word32 0x5869aff450549732cbaaed5e5df9b30a6da31cb0e5742bad5ad4a1a768f1a67b

/-- X25519 of either of `alice` and `bob` with the other. -/
def aliceBob : Word 32 := word32 0xa84dc7c3c8f058b1b2dc4cd1e9b5dc0a7987f88b6a9564cde3391fc421159e77

/-- Its digest, and those of the four texts that the handshake hashes. -/
def aliceBobHash : Word 32 := word32 0x55e832a7ed7d0f03b46e908d9cca795de2d2bf140fd80308e85a06069ae2b7a4
def aliceBobInit : Word 32 := word32 0xcd5c6343ddc4f21e270f85ba6626b0106e3b6fdeccf8bcac190c5baa1b345747
def aliceBobShared : Word 32 := word32 0xa7666c7dd4f65b06ed98a40d92104d6f6bb379d2f67ed6937a6868a3b8bfbcd3
def aliceBobResp : Word 32 := word32 0xf37f9f911ec31d767d6006d096465ab19c2aaf08e5af9393411a2135ec70ac21
def aliceBobSession : Word 32 := word32 0x526f383ab79d582167a3554fd312a33f373648ebda6ad0b7a298829e994d420b

/-- The keys of their session, at each end. -/
def aliceKeys : SessionKeys := ⟨firstHalf aliceBobSession, secondHalf aliceBobSession⟩
def bobKeys : SessionKeys := ⟨secondHalf aliceBobSession, firstHalf aliceBobSession⟩

def aliceBobSsl : OpenSsl where
  x25519 k p := if (k = alice.priv ∧ p = bob.pub) ∨ (k = bob.priv ∧ p = alice.pub) then some aliceBob else none
  sha256 l :=
    let s := aliceBobHash.toList
    if l = aliceBob.toList then aliceBobHash
    else if l = s ++ s ++ initLabel then aliceBobInit
    else if l = s ++ s ++ s ++ sharedLabel then aliceBobShared
    else if l = aliceBobShared.toList ++ respLabel then aliceBobResp
    else if l = aliceBobShared.toList ++ alice.pub.toList ++ bob.pub.toList ++ sessionLabel then aliceBobSession
    else Word.zero 32

def byteByByte (l : Octets) : List PollRecv := l.map fun x => .ready (.data x [])

theorem arriving_byteByByte (l : Octets) : arriving (byteByByte l) = some l := by
  induction l with
  | nil => rfl
  | cons x l ih =>
    show (arriving (byteByByte l)).map (x :: [] ++ ·) = some (x :: l)
    rw [ih]
    rfl

/-- A party that is at second 1000, has the key pair `k` for its ephemeral keys and finds `inbox`. -/
def partyWorld (k : KeyPair) (inbox : List PollRecv) : World where
  inbox := inbox
  sends := []
  outbox := []
  clock := [1000, 1000]
  keygens := [some k]
  stack := []
  replay := replayInit

theorem meeting_alice_bob {lib : OpenSsl} (agree : Agree lib alice bob) (qc qs : List PollRecv) :
    Meeting lib alice bob alice bob 1000 1000 1000 1000 (partyWorld alice qc) (partyWorld bob qs) := by
  refine ⟨⟨_, rfl⟩, ⟨_, rfl⟩, ⟨_, rfl⟩, ⟨_, rfl⟩, by decide, by decide, by decide, by decide, by decide, ?_, ?_, ?_, ?_,
    agree, agree, agree, rfl, rfl⟩
  · show isReplayIn replayInit 1000 bob.pub = false
    decide
  · show isReplayIn replayInit 1000 alice.pub = false
    decide
  · intro k hk; cases hk
  · intro k hk; cases hk

def aliceInit (lib : OpenSsl) : Octets := asymWire .pureC alice.pub 1000 (initKey lib aliceBobHash aliceBobHash)

theorem alice_outbox {lib : OpenSsl} (agree : Agree lib alice bob)
    (hderive : ecdhDerive lib alice.priv bob.pub = some aliceBobHash) (qc : List PollRecv) :
    (handshakeClient lib .pureC alice.priv bob.pub (partyWorld alice qc)).2.outbox = aliceInit lib :=
  (meeting_alice_bob agree qc []).client_outbox .pureC hderive hderive

theorem handshake_agreement_alice_bob :
    ∃ qc qs kc ks, (handshakeClient aliceBobSsl .pureC alice.priv bob.pub (partyWorld alice qc)).1 = some kc ∧
      (handshakeServer aliceBobSsl .pureC bob.priv alice.pub (partyWorld bob qs)).1 = some ks ∧
      kc.encKey = ks.decKey ∧ kc.decKey = ks.encKey ∧
      (clientSetup aliceBobSsl .pureC alice.priv bob.pub (partyWorld alice qc)).1 = some kc ∧
      (serverSetup aliceBobSsl .pureC bob.priv alice.pub (partyWorld bob qs)).1 = some ks := by
  have agree : Agree aliceBobSsl alice bob := ⟨aliceBob, by decide, by decide⟩
  have toServer := arriving_byteByByte (aliceInit aliceBobSsl)
  have toClient := arriving_byteByByte
    (serverSetup aliceBobSsl .pureC bob.priv alice.pub (partyWorld bob (byteByByte (aliceInit aliceBobSsl)))).2.outbox
  generalize byteByByte (aliceInit aliceBobSsl) = qs at *
  generalize byteByByte _ = qc at *
  refine ⟨qc, qs, handshake_agreement aliceBobSsl .pureC .pureC alice bob alice bob 1000 1000 1000 1000 _ _
    (meeting_alice_bob agree qc qs) ⟨[], ?_⟩ ⟨[], ?_⟩⟩
  · rw [clientSetup_outbox, alice_outbox agree (by decide), List.append_nil]
    exact toServer
  · rw [List.append_nil]
    exact toClient

end AegisTunnel
