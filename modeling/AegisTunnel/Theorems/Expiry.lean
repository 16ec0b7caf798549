import AegisTunnel.Theorems.SessionTable

/-! Expiry of the sessions of the UDP server. A session that was heard within the last five minutes stays. One
    that was not is dropped by the next clean-up, unless its keepalive has renewed it. -/

namespace AegisTunnel
open Octets

/-- The time at which a round runs, where its calls ask for it. -/
def UdpEvent.time : UdpEvent → Option Int64
  | .recv _ _ now _ _ => some now
  | .await _ (.dgram _ _ now) => some now
  | .cleanup now _ => some now
  | _ => none

/-- The slot of the session from which a round hears: one whose frame is accepted, or for which a handshake
    is confirmed. -/
def UdpServer.heardFrom (b : Backend) (s : UdpServer) : UdpEvent → Option Nat
  | .recv true (.dgram d sender) _ _ _ =>
    let buf := d.take udpMaxDgram
    if udpHsDgram ≤ buf.length ∧ buf.getD 0 0 = frameHandshake then none
    else (sessionFind s.sessions sender).filter fun si =>
      s.sessions[si]?.any fun x => match frameParseExplicit b buf x.decKey with
        | .ok _ => true
        | _ => false
  | .await true (.dgram d sender _) =>
    match s.pc with
    | .confirm offer _ => if udpConfirmed b offer.keys.decKey d then sessionSlot s.sessions sender else none
    | _ => none
  | _ => none

/-- The server with the time of its last call of `time`, and for each slot the time at which a datagram of its
    session last authenticated. -/
structure Watched where
  server : UdpServer
  clock : Int64
  heard : Nat → Int64

namespace Watched

def init : Watched := ⟨.init, 0, fun _ => 0⟩

section
variable (lib : OpenSsl) (b : Backend) (cfg : UdpConfig)

def step (w : Watched) (e : UdpEvent) : Option Watched :=
  (w.server.step lib b cfg e).map fun s =>
    let now := e.time.getD w.clock
    ⟨s, now, fun si => if w.server.heardFrom b e = some si then now else w.heard si⟩

end

/-- The clock does not go back. -/
def Forward (w : Watched) (e : UdpEvent) : Prop := w.clock ≤ e.time.getD w.clock

/-- For how long the session in a slot has been silent. -/
def silence (w : Watched) (si : Nat) : Int := w.clock.toInt - (w.heard si).toInt

/-- A session that was heard within the last 300 seconds is active. -/
def KeepsRecent (w : Watched) : Prop :=
  ∀ si x, w.server.sessions[si]? = some x → w.silence si ≤ 300 → x.active = true

/-- No session is active that has been silent for more than 300 seconds. -/
def DropsSilent (w : Watched) : Prop :=
  ∀ si x, w.server.sessions[si]? = some x → x.active = true → w.silence si ≤ 300

end Watched

/-! ### The clean-up -/

section Cleanup
variable {keepalive : Int32} {now : Int64} {x : UdpSession}

/-- A keepalive is due, as the clean-up computes it for a session with this time. -/
def KeepaliveDue (keepalive : Int32) (now lastSeen : Int64) : Prop :=
  0 < keepalive.toInt ∧ keepalive.toInt ≤ now.toInt - lastSeen.toInt

theorem toInt_sub_of_le {a c : Int64} (ha : 0 ≤ a.toInt) (hac : a.toInt ≤ c.toInt) : (c - a).toInt = c.toInt - a.toInt := by
  have := c.toInt_lt
  rw [Int64.toInt_sub, Int.bmod_eq_of_le (by omega) (by omega)]

theorem silent_iff (start : 0 ≤ x.lastSeen.toInt) (past : x.lastSeen.toInt ≤ now.toInt) :
    now - x.lastSeen > 300 ↔ 300 < now.toInt - x.lastSeen.toInt := by
  rw [gt_iff_lt, Int64.lt_iff_toInt_lt, toInt_sub_of_le start past]
  rfl

theorem keepaliveDue_iff (start : 0 ≤ x.lastSeen.toInt) (past : x.lastSeen.toInt ≤ now.toInt) :
    (keepalive > 0 && now - x.lastSeen ≥ keepalive.toInt64) = true ↔ KeepaliveDue keepalive now x.lastSeen := by
  rw [Bool.and_eq_true, decide_eq_true_iff, decide_eq_true_iff, gt_iff_lt, ge_iff_le, Int32.lt_iff_toInt_lt,
    Int64.le_iff_toInt_le, toInt_sub_of_le start past, Int32.toInt_toInt64]
  rfl

theorem cleanup_dead (dead : x.active = false) : x.cleanup keepalive now = x := by
  rw [UdpSession.cleanup, dead]
  rfl

/-- What the clean-up makes of an active session. -/
theorem cleanup_active (keepalive : Int32) (now : Int64) (live : x.active = true) (start : 0 ≤ x.lastSeen.toInt)
    (past : x.lastSeen.toInt ≤ now.toInt) :
    (KeepaliveDue keepalive now x.lastSeen ∧ x.cleanup keepalive now = { x with lastSeen := now }) ∨
    (¬ KeepaliveDue keepalive now x.lastSeen ∧ now.toInt - x.lastSeen.toInt ≤ 300 ∧ x.cleanup keepalive now = x) ∨
    (¬ KeepaliveDue keepalive now x.lastSeen ∧ 300 < now.toInt - x.lastSeen.toInt ∧ x.cleanup keepalive now = .zeroed) := by
  unfold UdpSession.cleanup
  rw [live, Bool.not_true, if_neg Bool.false_ne_true, ← keepaliveDue_iff start past]
  by_cases due : (keepalive > 0 && now - x.lastSeen ≥ keepalive.toInt64) = true
  · have fresh : ¬ now - now > 300 := by
      rw [Int64.sub_self]
      decide
    refine .inl ⟨due, ?_⟩
    rw [if_pos due]
    exact if_neg fresh
  · rw [if_neg due]
    by_cases silent : now - x.lastSeen > 300
    · exact .inr (.inr ⟨due, (silent_iff start past).mp silent, if_pos silent⟩)
    · refine .inr (.inl ⟨due, ?_, if_neg silent⟩)
      rw [silent_iff start past] at silent
      omega

end Cleanup

/-! ### What a round does to a slot -/

namespace UdpServer
variable {lib : OpenSsl} {b : Backend} {cfg : UdpConfig} {s t : UdpServer} {e : UdpEvent}

theorem step_running (h : step lib b cfg s e = some t) : s.pc ≠ .returned := by
  intro returned
  cases e <;> simp only [step, returned] at h <;> cases h

/-- A slot after a round: it is as it was but for the port, it was heard, the clean-up has passed over it, or
    the server has returned. -/
inductive SlotEffect (b : Backend) (cfg : UdpConfig) (s : UdpServer) (e : UdpEvent) (t : UdpServer) (si : Nat)
    (y : UdpSession) : Prop where
  | kept (x : UdpSession) (slot : s.sessions[si]? = some x) (silent : s.heardFrom b e ≠ some si)
      (active : y.active = x.active) (lastSeen : y.lastSeen = x.lastSeen)
  | heard (now : Int64) (time : e.time = some now) (from_ : s.heardFrom b e = some si) (active : y.active = true)
      (lastSeen : y.lastSeen = now)
  | cleaned (x : UdpSession) (now : Int64) (draws : Nat → Option (Word 8)) (event : e = .cleanup now draws)
      (slot : s.sessions[si]? = some x) (eq : y = x.cleanup cfg.keepalive now)
  | left (returned : t.pc = .returned) (dead : y.active = false)

section Heard
variable {d : Octets} {sender : SockAddr} {now : Int64} {host : World} {writes : List Sent} {si : Nat} {x : UdpSession}

theorem silent_of_quiet (quiet : e.datagram = none) : s.heardFrom b e ≠ some si := by
  intro heard
  unfold heardFrom at heard
  split at heard
  · cases quiet
  · cases quiet
  · cases heard

theorem silent_of_handshake (handshake : IsHandshake d) :
    s.heardFrom b (.recv true (.dgram d sender) now host writes) ≠ some si := by
  have unheard : s.heardFrom b (.recv true (.dgram d sender) now host writes) = none := if_pos handshake
  intro heard
  cases unheard.symm.trans heard

theorem silent_of_unknown (data : ¬ IsHandshake d) (unknown : sessionFind s.sessions sender = none) :
    s.heardFrom b (.recv true (.dgram d sender) now host writes) ≠ some si := by
  have unheard : s.heardFrom b (.recv true (.dgram d sender) now host writes) = _ := if_neg data
  rw [unheard, unknown]
  intro heard
  cases heard

theorem silent_of_rejected (data : ¬ IsHandshake d) (found : sessionFind s.sessions sender = some si)
    (slot : s.sessions[si]? = some x) (parse : ∀ f, frameParseExplicit b (d.take udpMaxDgram) x.decKey ≠ .ok f) (sj : Nat) :
    s.heardFrom b (.recv true (.dgram d sender) now host writes) ≠ some sj := by
  have unheard : s.heardFrom b (.recv true (.dgram d sender) now host writes) = _ := if_neg data
  rw [unheard, found, Option.filter_some, slot, Option.any_some]
  intro heard
  split at heard
  next f accepted => exact parse f accepted
  next => cases heard

theorem heardFrom_accepted {f : Frame} (data : ¬ IsHandshake d) (found : sessionFind s.sessions sender = some si)
    (slot : s.sessions[si]? = some x) (parse : frameParseExplicit b (d.take udpMaxDgram) x.decKey = .ok f) :
    s.heardFrom b (.recv true (.dgram d sender) now host writes) = some si := by
  have heard : s.heardFrom b (.recv true (.dgram d sender) now host writes) = _ := if_neg data
  rw [heard, found, Option.filter_some, slot, Option.any_some, parse]
  rfl

theorem DatagramEffect.slotEffect {tunIn : Bool} (h : DatagramEffect lib b cfg s tunIn d sender now writes t)
    {y : UdpSession} (hy : t.sessions[si]? = some y) :
    SlotEffect b cfg s (.recv true (.dgram d sender) now host writes) t si y := by
  rcases h with ⟨_, handshake, rfl⟩ | ⟨_, _, _, handshake, -, rfl⟩ | ⟨data, unknown, rfl⟩ |
    ⟨sj, x, data, found, slot, live, parse, rfl⟩ | ⟨sj, x, f, data, found, slot, live, parse, rfl⟩
  · exact .kept y hy (silent_of_handshake handshake) rfl rfl
  · exact .kept y hy (silent_of_handshake handshake) rfl rfl
  · exact .kept y hy (silent_of_unknown data unknown) rfl rfl
  · have silent : s.heardFrom b (.recv true (.dgram d sender) now host writes) ≠ some si :=
      silent_of_rejected data found slot parse si
    rcases Slots.getElem?_set_cases slot hy with ⟨rfl, rfl⟩ | ⟨-, old⟩
    · exact .kept x slot silent rfl rfl
    · exact .kept y old silent rfl rfl
  · have heard : s.heardFrom b (.recv true (.dgram d sender) now host writes) = some sj :=
      heardFrom_accepted data found slot parse
    rcases Slots.getElem?_set_cases slot hy with ⟨rfl, rfl⟩ | ⟨other, old⟩
    · exact .heard now rfl heard live rfl
    · exact .kept y old (fun h => other (Option.some.inj (heard.symm.trans h))) rfl rfl

theorem onConfirm_slotEffect {offer : UdpOffer} {tunIn : Bool} (place : s.pc = .confirm offer tunIn) {y : UdpSession}
    (hy : (s.onConfirm b cfg offer tunIn d sender now).sessions[si]? = some y) :
    SlotEffect b cfg s (.await true (.dgram d sender now)) (s.onConfirm b cfg offer tunIn d sender now) si y := by
  have from_ : s.heardFrom b (.await true (.dgram d sender now)) =
      if udpConfirmed b offer.keys.decKey d then sessionSlot s.sessions sender else none := by
    rw [heardFrom, place]
  cases hc : udpConfirmed b offer.keys.decKey d with
  | false =>
    rw [onConfirm_of_not hc] at hy ⊢
    rw [hc] at from_
    refine .kept y hy (fun heard => ?_) rfl rfl
    cases from_.symm.trans heard
  | true =>
    rw [onConfirm_of_confirmed hc] at hy ⊢
    rw [hc] at from_
    rcases Slots.getElem?_put hy with ⟨hx, hslot⟩ | ⟨hslot, ⟨-, x, -, -, -, rfl⟩ | ⟨-, -, rfl⟩⟩
    · exact .kept y hx (fun heard => hslot (from_.symm.trans heard)) rfl rfl
    · exact .heard now rfl (from_.trans hslot) rfl rfl
    · exact .heard now rfl (from_.trans hslot) rfl rfl

end Heard

theorem step_slot (h : step lib b cfg s e = some t) {si : Nat} {y : UdpSession} (hy : t.sessions[si]? = some y) :
    SlotEffect b cfg s e t si y := by
  rcases step_effect h with ⟨pc, -, quiet, rfl⟩ | ⟨quiet, rfl⟩ | ⟨tunIn, d, sender, now, host, writes, place, rfl, rfl⟩ |
    ⟨offer, tunIn, d, sender, now, place, rfl, rfl⟩ | ⟨pkt, draws, place, rfl, rfl⟩ | ⟨now, draws, place, rfl, rfl⟩
  · exact .kept y hy (silent_of_quiet quiet) rfl rfl
  · obtain ⟨x, -, rfl⟩ := Option.map_eq_some_iff.mp (List.getElem?_map.symm.trans hy)
    exact .left rfl rfl
  · exact (onDatagram_effect ..).slotEffect hy
  · exact onConfirm_slotEffect place hy
  · exact .kept y hy (silent_of_quiet rfl) rfl rfl
  · obtain ⟨x, hx, rfl⟩ := Option.map_eq_some_iff.mp (List.getElem?_map.symm.trans hy)
    exact .cleaned x now draws rfl hx rfl

end UdpServer

/-! ### Runs -/

namespace Watched
variable {lib : OpenSsl} {b : Backend} {cfg : UdpConfig} {w w' : Watched} {e : UdpEvent}

/-- What is known of the times: those of the sessions lie between the last datagram and now, and a slot is
    only dead after a silence of more than 300 seconds. -/
structure Times (w : Watched) : Prop where
  heard : ∀ si, 0 ≤ (w.heard si).toInt ∧ (w.heard si).toInt ≤ w.clock.toInt
  live : ∀ si x, w.server.sessions[si]? = some x → x.active = true →
    (w.heard si).toInt ≤ x.lastSeen.toInt ∧ x.lastSeen.toInt ≤ w.clock.toInt
  dead : w.server.pc ≠ .returned → ∀ si x, w.server.sessions[si]? = some x → x.active = false → 300 < w.silence si

theorem times_init : Times init where
  heard _ := ⟨Int.le_refl _, Int.le_refl _⟩
  live _ _ h := nomatch h
  dead _ _ _ h := nomatch h

/-- The parts of a step. -/
theorem step_parts (h : step lib b cfg w e = some w') : w.server.step lib b cfg e = some w'.server ∧
    w'.clock = e.time.getD w.clock ∧
    (∀ si, w.server.heardFrom b e = some si → w'.heard si = w'.clock) ∧
    ∀ si, w.server.heardFrom b e ≠ some si → w'.heard si = w.heard si := by
  obtain ⟨s, hs, rfl⟩ := Option.map_eq_some_iff.mp h
  exact ⟨hs, rfl, fun si heard => if_pos heard, fun si silent => if_neg silent⟩

theorem clock_le (h : step lib b cfg w e = some w') (forward : Forward w e) : w.clock.toInt ≤ w'.clock.toInt := by
  rw [(step_parts h).2.1]
  exact Int64.le_iff_toInt_le.mp forward

/-- What the clean-up does with a live session, whose times are in order. -/
theorem Times.cleaned (inv : Times w) (keepalive : Int32) {now : Int64} (later : w.clock.toInt ≤ now.toInt) {si : Nat}
    {x : UdpSession} (slot : w.server.sessions[si]? = some x) (live : x.active = true) :
    (KeepaliveDue keepalive now x.lastSeen ∧ x.cleanup keepalive now = { x with lastSeen := now }) ∨
    (¬ KeepaliveDue keepalive now x.lastSeen ∧ now.toInt - x.lastSeen.toInt ≤ 300 ∧ x.cleanup keepalive now = x) ∨
    (¬ KeepaliveDue keepalive now x.lastSeen ∧ 300 < now.toInt - x.lastSeen.toInt ∧ x.cleanup keepalive now = .zeroed) := by
  obtain ⟨low, high⟩ := inv.live si x slot live
  exact cleanup_active keepalive now live ((inv.heard si).1.trans low) (high.trans later)

theorem Times.step_heard (inv : Times w) (h : step lib b cfg w e = some w') (forward : Forward w e) (si : Nat) :
    0 ≤ (w'.heard si).toInt ∧ (w'.heard si).toInt ≤ w'.clock.toInt := by
  obtain ⟨-, -, hheard, hsilent⟩ := step_parts h
  have later := clock_le h forward
  obtain ⟨start, past⟩ := inv.heard si
  by_cases heard : w.server.heardFrom b e = some si
  · rw [hheard si heard]
    omega
  · rw [hsilent si heard]
    omega

theorem Times.step_live (inv : Times w) (h : step lib b cfg w e = some w') (forward : Forward w e) {si : Nat} {y : UdpSession}
    (hy : w'.server.sessions[si]? = some y) (live : y.active = true) :
    (w'.heard si).toInt ≤ y.lastSeen.toInt ∧ y.lastSeen.toInt ≤ w'.clock.toInt := by
  obtain ⟨hserver, hclock, hheard, hsilent⟩ := step_parts h
  have later := clock_le h forward
  rcases UdpServer.step_slot hserver hy with ⟨x, slot, silent, active, lastSeen⟩ | ⟨now, time, heard, -, lastSeen⟩ |
    ⟨x, now, draws, rfl, slot, rfl⟩ | ⟨-, dead⟩
  · obtain ⟨low, high⟩ := inv.live si x slot (active ▸ live)
    rw [hsilent si silent, lastSeen]
    omega
  · have hnow : w'.clock = now := by rw [hclock, time, Option.getD_some]
    rw [hheard si heard, lastSeen, hnow]
    omega
  · have hnow : w'.clock = now := hclock
    have past := (inv.heard si).2
    cases hx : x.active with
    | false =>
      rw [cleanup_dead hx, hx] at live
      cases live
    | true =>
      obtain ⟨low, high⟩ := inv.live si x slot hx
      rw [hnow] at later
      rw [hsilent si (UdpServer.silent_of_quiet rfl), hnow]
      rcases inv.cleaned cfg.keepalive later slot hx with ⟨-, eq⟩ | ⟨-, -, eq⟩ | ⟨-, -, eq⟩
      · rw [eq]
        dsimp only
        omega
      · rw [eq]
        omega
      · rw [eq] at live
        cases live
  · rw [dead] at live
    cases live

theorem Times.step_dead (inv : Times w) (h : step lib b cfg w e = some w') (forward : Forward w e)
    (running : w'.server.pc ≠ .returned) {si : Nat} {y : UdpSession} (hy : w'.server.sessions[si]? = some y)
    (dead : y.active = false) : 300 < w'.silence si := by
  obtain ⟨hserver, hclock, -, hsilent⟩ := step_parts h
  have later := clock_le h forward
  have longer (x : UdpSession) (slot : w.server.sessions[si]? = some x) (before : x.active = false)
      (silent : w.server.heardFrom b e ≠ some si) : 300 < w'.silence si := by
    have long := inv.dead (UdpServer.step_running hserver) si x slot before
    rw [silence] at long ⊢
    rw [hsilent si silent]
    omega
  rcases UdpServer.step_slot hserver hy with ⟨x, slot, silent, active, -⟩ | ⟨now, time, heard, active, -⟩ |
    ⟨x, now, draws, rfl, slot, rfl⟩ | ⟨returned, -⟩
  · exact longer x slot (active ▸ dead) silent
  · rw [active] at dead
    cases dead
  · have silent : w.server.heardFrom b (.cleanup now draws) ≠ some si := UdpServer.silent_of_quiet rfl
    have hnow : w'.clock = now := hclock
    cases hx : x.active with
    | false => exact longer x slot hx silent
    | true =>
      rw [hnow] at later
      have low := (inv.live si x slot hx).1
      rcases inv.cleaned cfg.keepalive later slot hx with ⟨-, eq⟩ | ⟨-, -, eq⟩ | ⟨-, old, -⟩
      · rw [eq] at dead
        cases hx.symm.trans dead
      · rw [eq] at dead
        cases hx.symm.trans dead
      · rw [silence, hsilent si silent, hnow]
        omega
  · exact absurd returned running

theorem step_times (inv : Times w) (h : step lib b cfg w e = some w') (forward : Forward w e) : Times w' where
  heard := inv.step_heard h forward
  live _ _ hy live := inv.step_live h forward hy live
  dead running _ _ hy dead := inv.step_dead h forward running hy dead

theorem times_of_run (run : Machine.Steps (step lib b cfg) (fun w e _ => Forward w e) init w) : Times w :=
  run.invariant times_init fun inv h forward => step_times inv h forward

theorem Times.keepsRecent (inv : Times w) (running : w.server.pc ≠ .returned) : KeepsRecent w := by
  intro si x hx recent
  by_contra dead
  have := inv.dead running si x hx (Bool.eq_false_iff.mpr dead)
  omega

/-- The clean-up drops what has been silent exactly if no keepalive has renewed it. -/
theorem Times.cleanup_iff (inv : Times w) {now : Int64} {draws : Nat → Option (Word 8)}
    (h : step lib b cfg w (.cleanup now draws) = some w') (forward : Forward w (.cleanup now draws)) :
    DropsSilent w' ↔ ∀ si x, w.server.sessions[si]? = some x → x.active = true → 300 < now.toInt - (w.heard si).toInt →
      300 < now.toInt - x.lastSeen.toInt ∧ ¬ KeepaliveDue cfg.keepalive now x.lastSeen := by
  obtain ⟨hserver, hclock, -, hsilent⟩ := step_parts h
  have hnow : w'.clock = now := hclock
  have later : w.clock.toInt ≤ now.toInt := Int64.le_iff_toInt_le.mp forward
  have silence_eq : ∀ si, w'.silence si = now.toInt - (w.heard si).toInt := fun si => by
    rw [silence, hsilent si (UdpServer.silent_of_quiet rfl), hnow]
  have slots (si : Nat) :
      w'.server.sessions[si]? = w.server.sessions[si]?.map (·.cleanup cfg.keepalive now) := by
    rw [UdpServer.onCleanup_of_step hserver]
    exact List.getElem?_map
  constructor
  · intro drops si x hx live silent
    have dead : (x.cleanup cfg.keepalive now).active ≠ true := fun active => by
      have := drops si _ (by rw [slots, hx, Option.map_some]) active
      rw [silence_eq] at this
      omega
    rcases inv.cleaned cfg.keepalive later hx live with ⟨-, eq⟩ | ⟨-, -, eq⟩ | ⟨undue, old, -⟩
    · rw [eq] at dead
      exact absurd live dead
    · rw [eq] at dead
      exact absurd live dead
    · exact ⟨old, undue⟩
  · intro stale si y hy livey
    rw [slots, Option.map_eq_some_iff] at hy
    obtain ⟨x, hx, rfl⟩ := hy
    by_contra silent
    rw [silence_eq] at silent
    have live : x.active = true := by
      by_contra dead
      rw [cleanup_dead (Bool.eq_false_iff.mpr dead)] at livey
      exact dead livey
    obtain ⟨old, undue⟩ := stale si x hx live (by omega)
    rcases inv.cleaned cfg.keepalive later hx live with ⟨due, -⟩ | ⟨-, recent, -⟩ | ⟨-, -, eq⟩
    · exact undue due
    · omega
    · rw [eq] at livey
      cases livey

/-- The time of each live session is that of its last datagram. -/
structure Unrenewed (w : Watched) : Prop extends Times w where
  same : ∀ si x, w.server.sessions[si]? = some x → x.active = true → x.lastSeen = w.heard si

theorem Unrenewed.step (inv : Unrenewed w) (off : cfg.keepalive.toInt ≤ 0) (h : Watched.step lib b cfg w e = some w')
    (forward : Forward w e) : Unrenewed w' := by
  refine ⟨step_times inv.toTimes h forward, fun si y hy live => ?_⟩
  obtain ⟨hserver, hclock, hheard, hsilent⟩ := step_parts h
  rcases UdpServer.step_slot hserver hy with ⟨x, slot, silent, active, lastSeen⟩ | ⟨now, time, heard, -, lastSeen⟩ |
    ⟨x, now, draws, rfl, slot, rfl⟩ | ⟨-, dead⟩
  · rw [lastSeen, hsilent si silent]
    exact inv.same si x slot (active ▸ live)
  · rw [lastSeen, hheard si heard, hclock, time, Option.getD_some]
  · rw [hsilent si (UdpServer.silent_of_quiet rfl)]
    cases hx : x.active with
    | false =>
      rw [cleanup_dead hx, hx] at live
      cases live
    | true =>
      have later : w.clock.toInt ≤ now.toInt := Int64.le_iff_toInt_le.mp forward
      rcases inv.cleaned cfg.keepalive later slot hx with ⟨due, -⟩ | ⟨-, -, eq⟩ | ⟨-, -, eq⟩
      · exact absurd due.1 (by omega)
      · rw [eq]
        exact inv.same si x slot hx
      · rw [eq] at live
        cases live
  · rw [dead] at live
    cases live

/-- Without keepalives nothing renews a session. -/
theorem unrenewed_of_run (off : cfg.keepalive.toInt ≤ 0)
    (run : Machine.Steps (step lib b cfg) (fun w e _ => Forward w e) init w) : Unrenewed w := by
  have start : Unrenewed init := ⟨times_init, fun _ _ h => nomatch h⟩
  exact run.invariant start fun inv h forward => inv.step off h forward

/-- In every run a session that was heard within 300 seconds is active; and a clean-up leaves no session that has been
    silent for longer exactly if each of them has an old time and no keepalive is due for it. So it leaves none without
    keepalives, and with keepalives of up to 300 seconds it drops none. -/
theorem session_expiry_iff (run : Machine.Steps (step lib b cfg) (fun w e _ => Forward w e) init w) :
    (w.server.pc ≠ .returned → KeepsRecent w) ∧
    ∀ now draws w', step lib b cfg w (.cleanup now draws) = some w' → Forward w (.cleanup now draws) →
      (DropsSilent w' ↔ ∀ si x, w.server.sessions[si]? = some x → x.active = true →
        300 < now.toInt - (w.heard si).toInt →
          300 < now.toInt - x.lastSeen.toInt ∧ ¬ KeepaliveDue cfg.keepalive now x.lastSeen) ∧
      (cfg.keepalive.toInt ≤ 0 → DropsSilent w') ∧
      (0 < cfg.keepalive.toInt → cfg.keepalive.toInt ≤ 300 →
        (DropsSilent w' ↔ ∀ si x, w.server.sessions[si]? = some x → x.active = true →
          now.toInt - (w.heard si).toInt ≤ 300)) := by
  have inv := times_of_run run
  refine ⟨inv.keepsRecent, fun now draws w' h forward => ?_⟩
  have exact_ := inv.cleanup_iff h forward
  refine ⟨exact_, fun off => exact_.mpr fun si x slot live silent => ?_, fun on short => exact_.trans ?_⟩
  · rw [(unrenewed_of_run off run).same si x slot live]
    exact ⟨silent, fun due => absurd due.1 (by omega)⟩
  · constructor
    · intro stale si x slot live
      by_contra silent
      obtain ⟨old, undue⟩ := stale si x slot live (by omega)
      exact undue ⟨on, by omega⟩
    · intro recent si x slot live silent
      have := recent si x slot live
      omega

/-! ### Carol's session -/

theorem step_of_server {s : UdpServer} (h : w.server.step lib b cfg e = some s) : step lib b cfg w e =
    some ⟨s, e.time.getD w.clock, fun si => if w.server.heardFrom b e = some si then e.time.getD w.clock else w.heard si⟩ := by
  rw [step, h]
  rfl

/-- Carol joins at second 1000, and the server comes to the clean-up. -/
theorem carol_heard {cfg : UdpConfig} (own : cfg.asymPriv = bob.priv) (peers : cfg.peers = bobConfig.peers) :
    ∃ w x, Machine.Steps (step udpSsl .pureC cfg) (fun w e _ => Forward w e) init w ∧
      w.server.pc = .cleanup ∧ w.clock = 1000 ∧ w.heard 0 = 1000 ∧ w.server.sessions = [x] ∧ x.active = true ∧
      x.lastSeen = 1000 := by
  obtain ⟨offer, hoffer⟩ : ∃ offer, offer = bobOffer 0 bobCarolHash 1000 := ⟨_, rfl⟩
  have answered : (udpTryPeers udpSsl .pureC cfg.asymPriv (clientInit carolPub bobCarolHash 1000) 0
      (cfg.peers.map (·.pub)) (bobHost 1000)).1 = some offer := by
    rw [own, peers, hoffer]
    exact bob_offers udpSsl_bob_carol (by decide) [alice.pub]
  obtain ⟨w₁, hpoll, hw₁⟩ : ∃ w₁, step udpSsl .pureC cfg init (.round true (.ready true false)) = some w₁ ∧
      w₁ = ⟨{ UdpServer.init with pc := .udp false }, 0, fun _ => 0⟩ := ⟨_, rfl, rfl⟩
  have place : w₁.server.pc = .udp false := by rw [hw₁]
  have admitted : (handshakeRateCheck (inetNtop (natClient 4000).ip) 1000 w₁.server.rate).1 = true := by
    rw [hw₁]
    exact rateInit_admits ..
  obtain ⟨w₂, hinit, hpc₂, hsessions₂, hclock₂⟩ : ∃ w₂, step udpSsl .pureC cfg w₁
      (.recv true (.dgram (clientInit carolPub bobCarolHash 1000) (natClient 4000)) 1000 (bobHost 1000) []) = some w₂ ∧
      w₂.server.pc = .confirm offer false ∧ w₂.server.sessions = [] ∧ w₂.clock = 1000 :=
    ⟨_, step_of_server (UdpServer.step_init [] place length_udpHsBuild getD_udpHsBuild admitted answered), rfl,
      by rw [hw₁]; rfl, rfl⟩
  have hconfirmed : udpConfirmed .pureC offer.keys.decKey (udpConfirm .pureC offer.keys.decKey) = true :=
    udpConfirmed_udpConfirm
  have hconfirm := UdpServer.step_confirm udpSsl .pureC cfg (udpConfirm .pureC offer.keys.decKey) (natClient 4000) 1000 hpc₂
  rw [UdpServer.onConfirm_of_confirmed hconfirmed, hsessions₂] at hconfirm
  have hfrom : w₂.server.heardFrom .pureC
      (.await true (.dgram (udpConfirm .pureC offer.keys.decKey) (natClient 4000) 1000)) = some 0 := by
    simp only [UdpServer.heardFrom, hpc₂, hconfirmed, hsessions₂, if_true]
    rfl
  obtain ⟨w₃, hjoin, hpc₃, hsessions₃, hclock₃, hheard₃⟩ : ∃ w₃, step udpSsl .pureC cfg w₂
      (.await true (.dgram (udpConfirm .pureC offer.keys.decKey) (natClient 4000) 1000)) = some w₃ ∧
      w₃.server.pc = .udp false ∧ w₃.server.sessions = sessionInstall cfg offer (natClient 4000) 1000 [] ∧
      w₃.clock = 1000 ∧ w₃.heard 0 = 1000 :=
    ⟨_, step_of_server hconfirm, rfl, rfl, rfl, if_pos hfrom⟩
  have hagain : w₃.server.step udpSsl .pureC cfg (.recv true .again 1000 (bobHost 1000) []) =
      some (w₃.server.drained false) := by
    simp only [UdpServer.step, hpc₃, Bool.not_true, Bool.false_eq_true, if_false]
  refine ⟨_, _, .tail (.tail (.tail (.tail .refl hpoll ?_) hinit ?_) hjoin ?_) (step_of_server hagain) ?_, rfl, rfl, ?_,
    hsessions₃, rfl, rfl⟩
  · exact Int64.le_refl _
  · show w₁.clock ≤ 1000
    rw [hw₁]
    decide
  · show w₂.clock ≤ 1000
    rw [hclock₂]
    decide
  · show w₃.clock ≤ 1000
    rw [hclock₃]
    decide
  · have silent : w₃.server.heardFrom .pureC (.recv true .again 1000 (bobHost 1000) []) ≠ some 0 :=
      UdpServer.silent_of_quiet rfl
    show (if w₃.server.heardFrom .pureC (.recv true .again 1000 (bobHost 1000) []) = some 0 then 1000 else w₃.heard 0) = 1000
    rw [if_neg silent, hheard₃]

/-- With no keepalive Carol's session is dropped when it has been silent for 400 seconds. -/
theorem session_expiry_iff_carol :
    ∃ w w' x draws, Machine.Steps (step udpSsl .pureC bobConfig) (fun w e _ => Forward w e) init w ∧ KeepsRecent w ∧
      w.server.sessions[0]? = some x ∧ x.active = true ∧
      step udpSsl .pureC bobConfig w (.cleanup 1400 draws) = some w' ∧ DropsSilent w' := by
  have own : bobConfig.asymPriv = bob.priv := rfl
  obtain ⟨w, x, run, hpc, hclock, -, hsessions, live, hseen⟩ := carol_heard own rfl
  have hstep := step_of_server (UdpServer.step_cleanup udpSsl .pureC bobConfig 1400 (fun _ => none) hpc)
  have forward : Forward w (.cleanup 1400 fun _ => none) := by
    show w.clock ≤ 1400
    rw [hclock]
    decide
  obtain ⟨recent, expiry⟩ := session_expiry_iff run
  refine ⟨w, _, x, _, run, recent (by rw [hpc]; exact UdpPc.noConfusion), by rw [hsessions]; rfl, live, hstep,
    (expiry 1400 _ _ hstep forward).1.mpr fun si y hy _ _ => ?_⟩
  have same : y = x := by
    rw [hsessions] at hy
    exact List.mem_singleton.mp (List.mem_of_getElem? hy)
  rw [same, hseen]
  exact ⟨by decide, fun due => absurd due.1 (by decide)⟩

/-- With a keepalive of 25 seconds it stays when it has been silent for 301 seconds. -/
theorem keepalive_renews_silent :
    ¬ ∀ (lib : OpenSsl) (b : Backend) (cfg : UdpConfig) (w w' : Watched) (now : Int64) (draws : Nat → Option (Word 8)),
      Machine.Steps (step lib b cfg) (fun w e _ => Forward w e) init w →
      step lib b cfg w (.cleanup now draws) = some w' → Forward w (.cleanup now draws) → DropsSilent w' := by
  intro drops
  obtain ⟨cfg, hcfg⟩ : ∃ cfg : UdpConfig, cfg = { bobConfig with keepalive := 25 } := ⟨_, rfl⟩
  have own : cfg.asymPriv = bob.priv := by rw [hcfg]; rfl
  obtain ⟨w, x, run, hpc, hclock, hheard, hsessions, live, hseen⟩ := carol_heard own (by rw [hcfg])
  have hstep := step_of_server (UdpServer.step_cleanup udpSsl .pureC cfg 1301 (fun _ => none) hpc)
  have forward : Forward w (.cleanup 1301 fun _ => none) := by
    show w.clock ≤ 1301
    rw [hclock]
    decide
  have inv := times_of_run run
  have dropped := drops _ _ _ w _ 1301 _ run hstep forward
  obtain ⟨-, undue⟩ := (inv.cleanup_iff hstep forward).mp dropped 0 x (by rw [hsessions]; rfl) live (by rw [hheard]; decide)
  rw [hseen, hcfg] at undue
  exact undue ⟨by decide, by decide⟩

end Watched

end AegisTunnel
