import AegisTunnel.Theorems.Handshake

/-! What `handshake_server` makes of a message: the timestamp in it if a key opens it, and exactly when the
    message is refused. -/

namespace AegisTunnel
open Octets

/-! ### The message -/

/-- The two reads of `handshake_server` bring in the 60 bytes `m`. -/
def Reads (w : World) (m : Octets) : Prop :=
  ∃ q q', recvAll 36 w = (some (m.take 36), { w with inbox := q }) ∧
    recvAll 24 { w with inbox := q } = (some (m.drop 36), { w with inbox := q' })

theorem reads_of_arriving {w : World} {m r : Octets} (hlen : m.length = 60) (h : arriving w.inbox = some (m ++ r)) :
    Reads w m := by
  rw [← List.take_append_drop 36 m, List.append_assoc] at h
  obtain ⟨q, hfirst, hq⟩ := recvAll_arriving (n := 36) (by rw [List.length_take, hlen]; rfl) h
  obtain ⟨q', hsecond, -⟩ := recvAll_arriving (n := 24) (w := { w with inbox := q }) (by rw [List.length_drop, hlen]) hq
  exact ⟨q, q', hfirst, hsecond⟩

/-- The ephemeral key in a message. -/
def ephOf (m : Octets) : Word 32 := load 32 ((m.take 36).drop 4)

/-- The timestamp that the server reads in a message, if the key that it computes for the peer opens it. -/
def opened (lib : OpenSsl) (b : Backend) (k p : Word 32) (m : Octets) (stack : List (Word 32)) : Option Int64 :=
  let ee := derived lib k (ephOf m) stack
  let es := derived lib k p ee.2
  let r := aegisDecrypt b ((m.drop 36).take 8) (asymHeader ++ (ephOf m).toList) (Word.zero 16) (initKey lib ee.1 es.1)
    (load 16 ((m.drop 36).drop 8))
  if r.ret ≠ 0 then none else some (bytesTs r.dst)

/-- The clock is within the window of a timestamp when the timestamp is checked. -/
def Within (ts : Int64) (clock : List Int64) : Prop := ∃ n cl, clock = n :: cl ∧ 0 ≤ n ∧ |n.toInt - ts.toInt| ≤ 60

/-- The calls that the server makes for its answer succeed. -/
structure Served (w : World) : Prop where
  keygen : ∃ e ks, w.keygens = some e :: ks
  stamped : 0 ≤ (w.clock.drop 1).headD (-1)
  sent : (sendLoop (List.replicate 60 0) w.sends).1 = some ()

theorem length_asymWire (b : Backend) (epk : Word 32) (ts : Int64) (key : Block) : (asymWire b epk ts key).length = 60 := by
  rw [asymWire_eq, List.length_append, length_asymBody, List.length_append, List.Vector.toList_length]
  rfl

theorem timestampNow_eq (w : World) :
    timestampNow w = (some (w.clock.headD (-1)), { w with clock := w.clock.tail }) := by
  unfold timestampNow
  split
  next h =>
    rw [h, List.headD_nil, List.tail_nil, ← h]
  next h => rw [h, List.headD_cons, List.tail_cons]

/-- Whether `send_all` gets through depends on the number of bytes only. -/
theorem sendLoop_fst {l l' : Octets} (h : l.length = l'.length) (q : List Sent) : (sendLoop l q).1 = (sendLoop l' q).1 := by
  induction q generalizing l l' with
  | nil => rfl
  | cons k q ih =>
    have hempty : l.isEmpty = l'.isEmpty := by
      cases l <;> cases l' <;> simp_all
    unfold sendLoop
    rw [hempty]
    split
    · rfl
    · cases k with
      | took n =>
        cases n with
        | zero => rfl
        | succ n => exact ih (by rw [List.length_drop, List.length_drop, h])
      | eintr => exact ih h
      | again => rfl
      | error => rfl

theorem asymSend_fst (b : Backend) (epk : Word 32) (ts : Int64) (key : Block) (w : World) :
    (asymSend b epk ts key w).1 = (sendLoop (List.replicate 60 0) w.sends).1 :=
  sendLoop_fst ((length_asymWire b epk ts key).trans List.length_replicate.symm) w.sends

section Server
variable {lib : OpenSsl} {b : Backend} {k p : Word 32} {w : World} {m : Octets}

/-- `handshake_server` after the timestamp is checked. -/
def serverAnswer (lib : OpenSsl) (b : Backend) (ourPriv peerPub iepk : Word 32) : Hs SessionKeys := do
  let e ← ecdhKeygen
  let ee ← deriveInto lib ourPriv iepk
  let es ← deriveInto lib ourPriv peerPub
  let se ← deriveInto lib e.priv peerPub
  let sh := asymShared lib ee es se
  let keys := asymSess lib sh iepk e.pub
  let ts ← timestampNow
  asymSend b e.pub ts (asymResp lib sh)
  if ts < 0 then Run.fail else pure ⟨keys.decKey, keys.encKey⟩

theorem serverAnswer_none_iff (iepk : Word 32) :
    (serverAnswer lib b k p iepk w).1 = none ↔ ¬ ((∃ e ks, w.keygens = some e :: ks) ∧ 0 ≤ w.clock.headD (-1) ∧
      (sendLoop (List.replicate 60 0) w.sends).1 = some ()) := by
  cases hgen : w.keygens with
  | nil =>
    have h : ecdhKeygen w = (none, w) := by simp only [ecdhKeygen, hgen]
    rw [serverAnswer, Run.bind_none h]
    simp
  | cons o ks =>
    cases o with
    | none =>
      have h : ecdhKeygen w = (none, { w with keygens := ks }) := by simp only [ecdhKeygen, hgen]
      rw [serverAnswer, Run.bind_none h]
      simp
    | some e =>
      rw [serverAnswer, Run.bind_some (ecdhKeygen_some hgen), Run.bind_some (deriveInto_eq ..), Run.bind_some (deriveInto_eq ..),
        Run.bind_some (deriveInto_eq ..), Run.bind_some (timestampNow_eq _)]
      dsimp only
      generalize w.clock.headD (-1) = ts
      generalize asymResp lib _ = key
      generalize hw : World.mk _ _ _ _ _ _ _ = w'
      have hsent : (asymSend b e.pub ts key w').1 = (sendLoop (List.replicate 60 0) w.sends).1 := by
        rw [asymSend_fst, ← hw]
      cases hq : (sendLoop (List.replicate 60 0) w.sends).1 with
      | none =>
        rw [Run.bind_none (Prod.ext (hsent.trans hq) rfl)]
        simp
      | some u =>
        rw [Run.bind_some (Prod.ext (hsent.trans hq) rfl)]
        by_cases hneg : ts < 0
        · rw [if_pos hneg]
          simp [Run.fail, Int64.not_le.mpr hneg]
        · rw [if_neg hneg]
          simp [Run.pure_apply, Int64.not_lt.mp hneg]

theorem recvAll_of_inbox {n : Nat} {w w' : World} {o : Option Octets} {q : List PollRecv}
    (h : recvAll n w = (o, { w with inbox := q })) (hw : w'.inbox = w.inbox) : recvAll n w' = (o, { w' with inbox := q }) := by
  obtain ⟨hres, hleft⟩ := Prod.mk.inj h
  have hinbox : (recvLoop n [] w.inbox).2 = q := congrArg World.inbox hleft
  rw [recvAll, hw, hres, hinbox]

theorem checkTs_seen {ts n : Int64} {cl : List Int64} {epk : Word 32} (hclock : w.clock = n :: cl) (hn : 0 ≤ n)
    (hwindow : |n.toInt - ts.toInt| ≤ 60) (hseen : isReplayIn w.replay ts epk = true) : (checkTs ts epk w).1 = none := by
  have hnow : timestampNow w = (some n, { w with clock := cl }) :=
    timestampNow_some hclock
  have hreplay : isReplay ts epk { w with clock := cl } = (some true, { w with clock := cl }) := by
    unfold isReplay
    rw [if_pos hseen]
  rw [checkTs, Run.bind_some hnow, if_neg (Int64.not_lt.mpr hn), if_neg (window_dist hwindow), Run.bind_some hreplay]
  rfl

/-- A message that is read is first opened; then its timestamp is checked, and then it is answered. -/
theorem handshakeServer_reads (lib : OpenSsl) (b : Backend) (k p : Word 32) (reads : Reads w m) :
    (opened lib b k p m w.stack = none → (handshakeServer lib b k p w).1 = none) ∧
      ∀ ts, opened lib b k p m w.stack = some ts → ∃ q stack, handshakeServer lib b k p w =
        (checkTs ts (ephOf m) >>= fun _ => serverAnswer lib b k p (ephOf m)) { w with inbox := q, stack := stack } := by
  obtain ⟨q, q', hfirst, hsecond⟩ := reads
  have hhdr : asymHdr w = (some (ephOf m), { w with inbox := q }) := Run.bind_some hfirst
  have hts : asymTs b (ephOf m) (initKey lib (derived lib k (ephOf m) w.stack).1
        (derived lib k p (derived lib k (ephOf m) w.stack).2).1)
      { w with inbox := q, stack := (derived lib k p (derived lib k (ephOf m) w.stack).2).2 } =
      (opened lib b k p m w.stack, { w with inbox := q', stack := (derived lib k p (derived lib k (ephOf m) w.stack).2).2 }) :=
    asymTs_eq (recvAll_of_inbox hsecond rfl)
  rw [handshakeServer, Run.bind_some hhdr, Run.bind_some (deriveInto_eq ..), Run.bind_some (deriveInto_eq ..)]
  refine ⟨fun hnone => ?_, fun ts hsome =>
    ⟨q', (derived lib k p (derived lib k (ephOf m) w.stack).2).2, ?_⟩⟩
  · rw [hnone] at hts
    rw [Run.bind_none hts]
  · rw [hsome] at hts
    rw [Run.bind_some hts]
    rfl

/-- A message whose timestamp is within the window is refused if no key opens it, if it has been seen, or
    if the answer fails. -/
theorem handshakeServer_none_iff (reads : Reads w m)
    (window : ∀ ts, opened lib b k p m w.stack = some ts → Within ts w.clock) :
    (handshakeServer lib b k p w).1 = none ↔ opened lib b k p m w.stack = none ∨
      (∃ ts, opened lib b k p m w.stack = some ts ∧ isReplayIn w.replay ts (ephOf m) = true) ∨ ¬ Served w := by
  obtain ⟨unopened, checked⟩ := handshakeServer_reads lib b k p reads
  cases ho : opened lib b k p m w.stack with
  | none => simp [unopened ho]
  | some ts =>
    obtain ⟨q, stack, hserver⟩ := checked ts ho
    obtain ⟨n, cl, hclock, hn, hwindow⟩ := window ts ho
    rw [hserver]
    cases hseen : isReplayIn w.replay ts (ephOf m) with
    | true =>
      have hnone := checkTs_seen (w := { w with inbox := q, stack := stack }) hclock hn hwindow hseen
      rw [Run.bind_none (Prod.ext hnone rfl)]
      simp [hseen]
    | false =>
      obtain ⟨c, hcheck⟩ := checkTs_ok (w := { w with inbox := q, stack := stack }) hclock hn hwindow hseen
      rw [Run.bind_some hcheck, serverAnswer_none_iff]
      have hserved : Served w ↔ (∃ e ks, w.keygens = some e :: ks) ∧ 0 ≤ cl.headD (-1) ∧
          (sendLoop (List.replicate 60 0) w.sends).1 = some () :=
        ⟨fun h => ⟨h.keygen, by simpa [hclock] using h.stamped, h.sent⟩,
          fun ⟨h, h', h''⟩ => ⟨h, by simpa [hclock] using h', h''⟩⟩
      rw [hserved]
      simp [hseen]

end Server

end AegisTunnel
