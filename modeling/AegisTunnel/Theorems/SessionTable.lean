import AegisTunnel.SessionTable
import AegisTunnel.Theorems.ModeTunUdp

/-! The session table over whole runs: the array of the source does what the list of slots in use does, the
    slots above the count stay dead, and no two live sessions have the same address. -/

namespace AegisTunnel
open Octets

namespace SessionTable
variable {t : SessionTable} {si i : Nat} {f : UdpSession → UdpSession}

/-! ### Slots -/

theorem get_modify (h : si < udpMaxClients) : (t.modify si f).get i = if si = i then f (t.get i) else t.get i := by
  have hlen := t.size
  simp only [get, modify, List.getD_eq_getElem?_getD, List.getElem?_modify]
  split
  next same =>
    subst same
    rw [List.getElem?_eq_getElem (by omega)]
    rfl
  next => exact congrArg (·.getD UdpSession.zeroed) (id_map t.sessions[i]?)

theorem count_foldl (k : Nat) : ((List.range k).foldl (fun t si => t.modify si f) t).count = t.count := by
  induction k with
  | zero => rfl
  | succ k ih => rw [List.range_succ, List.foldl_append]; exact ih

theorem count_each : (t.each f).count = t.count := count_foldl t.count

/-- After `k` rounds of the loop. -/
theorem get_foldl {k : Nat} (hk : k ≤ udpMaxClients) :
    ((List.range k).foldl (fun t si => t.modify si f) t).get i = if i < k then f (t.get i) else t.get i := by
  induction k with
  | zero => rfl
  | succ k ih =>
    rw [List.range_succ, List.foldl_append, List.foldl_cons, List.foldl_nil, get_modify (by omega), ih (by omega)]
    rcases Nat.lt_trichotomy i k with less | rfl | more
    · rw [if_neg (by omega), if_pos less, if_pos (by omega)]
    · rw [if_pos rfl, if_neg (by omega), if_pos (by omega)]
    · rw [if_neg (by omega), if_neg (by omega), if_neg (by omega)]

theorem get_each (bounded : t.count ≤ udpMaxClients) :
    (t.each f).get i = if i < t.count then f (t.get i) else t.get i := get_foldl bounded

/-! ### The slots in use -/

theorem getElem?_used (bounded : t.count ≤ udpMaxClients) : t.used[i]? = if i < t.count then some (t.get i) else none := by
  have hlen := t.size
  rw [used, List.getElem?_take]
  split
  · rw [get, List.getD_eq_getElem?_getD, List.getElem?_eq_getElem (by omega)]
    rfl
  · rfl

theorem length_used (bounded : t.count ≤ udpMaxClients) : t.used.length = t.count := by
  rw [used, List.length_take, t.size, Nat.min_eq_left bounded]

/-- A table is known by its count and its slots below it. -/
theorem used_eq {l : List UdpSession} (bounded : t.count ≤ udpMaxClients) (len : l.length = t.count)
    (slots : ∀ i < t.count, l[i]? = some (t.get i)) : t.used = l := by
  apply List.ext_getElem?
  intro i
  rw [getElem?_used bounded]
  split
  next h => exact (slots i h).symm
  next h => exact (List.getElem?_eq_none (by omega)).symm

theorem find_eq (bounded : t.count ≤ udpMaxClients) (addr : SockAddr) : t.find addr = sessionFind t.used addr := by
  have entry : ∀ j (h : j < t.used.length), t.used[j] = t.get j := fun j h => by
    have hslot := getElem?_used bounded (i := j)
    rw [if_pos (length_used bounded ▸ h), List.getElem?_eq_getElem h] at hslot
    exact Option.some.inj hslot
  apply Option.ext
  intro i
  rw [find, sessionFind, Slots.find, List.find?_range_eq_some, List.findIdx?_eq_some_iff_getElem, List.mem_range]
  constructor
  · rintro ⟨hit, hi, miss⟩
    have hi' : i < t.used.length := by rwa [length_used bounded]
    refine ⟨hi', by rwa [entry], fun j hj => ?_⟩
    rw [entry]
    exact Bool.eq_false_iff.mp ((Bool.not_eq_true' _).mp (miss j hj))
  · rintro ⟨hi, hit, miss⟩
    rw [entry] at hit
    refine ⟨hit, length_used bounded ▸ hi, fun j hj => ?_⟩
    have := miss j hj
    rw [entry] at this
    exact (Bool.not_eq_true' _).mpr (Bool.eq_false_iff.mpr this)

theorem used_modify (bounded : t.count ≤ udpMaxClients) (h : si < t.count) :
    (t.modify si f).used = t.used.modify si f := by
  refine used_eq bounded (by rw [List.length_modify, length_used bounded]; rfl) fun i hi => ?_
  have hi : i < t.count := hi
  rw [List.getElem?_modify, getElem?_used bounded, if_pos hi, get_modify (by omega)]
  split <;> rfl

theorem used_each (bounded : t.count ≤ udpMaxClients) : (t.each f).used = t.used.map f := by
  have hcount : (t.each f).count = t.count := count_each
  refine used_eq (by rwa [hcount]) (by rw [List.length_map, length_used bounded, hcount]) fun i hi => ?_
  rw [hcount] at hi
  rw [List.getElem?_map, getElem?_used bounded, if_pos hi, get_each bounded, if_pos hi]
  rfl

/-! ### The operations -/

section Operations
variable {b : Backend} {cfg : UdpConfig} {offer : UdpOffer} {sender : SockAddr} {now : Int64} {buf : Octets}

theorem find_lt (found : t.find sender = some si) : si < t.count := by
  obtain ⟨-, hi, -⟩ := List.find?_range_eq_some.mp found
  exact List.mem_range.mp hi

/-- The slots above the count are dead. -/
structure Fits (t : SessionTable) : Prop where
  bounded : t.count ≤ udpMaxClients
  above : ∀ i, t.count ≤ i → t.get i = .zeroed

theorem Fits.modify (fits : t.Fits) (h : si < t.count) : (t.modify si f).Fits := by
  refine ⟨fits.bounded, fun i hi => ?_⟩
  have hi : t.count ≤ i := hi
  rw [get_modify (h.trans_le fits.bounded), if_neg (by omega)]
  exact fits.above i hi

theorem Fits.each (fits : t.Fits) : (t.each f).Fits := by
  have hcount : (t.each f).count = t.count := count_each
  refine ⟨by rw [hcount]; exact fits.bounded, fun i hi => ?_⟩
  rw [hcount] at hi
  rw [get_each fits.bounded, if_neg (by omega)]
  exact fits.above i hi

theorem Fits.onData (fits : t.Fits) : (t.onData b buf sender now).Fits := by
  unfold SessionTable.onData
  split
  next => exact fits
  next si found =>
    have lt : si < t.count := find_lt found
    have touched : (t.modify si fun x => { x with addr.port := sender.port }).Fits := fits.modify lt
    dsimp only
    split
    · exact touched.modify lt
    · exact touched

theorem modify_eq_set {l : List UdpSession} {x : UdpSession} (hx : l[si]? = some x) : l.modify si f = l.set si (f x) := by
  rw [List.modify_eq_set_getElem?, hx]
  rfl

/-- The data branch does to the slots in use what `UdpServer.onData` does to its table. -/
theorem used_onData (fits : t.Fits) {x : UdpSession} (found : sessionFind t.used sender = some si)
    (slot : t.used[si]? = some x) : (t.onData b buf sender now).used = t.used.set si
      (match frameParseExplicit b buf x.decKey with
      | .ok _ => { x with addr.port := sender.port, lastSeen := now }
      | _ => { x with addr.port := sender.port }) := by
  rw [← find_eq fits.bounded] at found
  have lt : si < t.count := find_lt found
  have hx : t.get si = x := by
    rw [getElem?_used fits.bounded, if_pos lt] at slot
    exact Option.some.inj slot
  have hkey : ((t.modify si fun x => { x with addr.port := sender.port }).get si).decKey = x.decKey := by
    rw [get_modify (lt.trans_le fits.bounded), if_pos rfl, hx]
  have port : (t.modify si fun x => { x with addr.port := sender.port }).used =
      t.used.set si { x with addr.port := sender.port } := by
    rw [used_modify fits.bounded lt, modify_eq_set slot]
  simp only [onData, found, hkey]
  cases frameParseExplicit b buf x.decKey with
  | malformed => exact port
  | rejected m => exact port
  | ok f =>
    dsimp only
    have hlt : si < t.used.length := by rwa [length_used fits.bounded]
    rw [used_modify (fits.modify lt).bounded lt, port, modify_eq_set (List.getElem?_set_self hlt), List.set_set]

theorem used_onData_unknown (fits : t.Fits) (unknown : sessionFind t.used sender = none) :
    (t.onData b buf sender now).used = t.used := by
  rw [← find_eq fits.bounded] at unknown
  rw [onData, unknown]

theorem Fits.install (fits : t.Fits) : (t.install cfg offer sender now).Fits := by
  unfold SessionTable.install
  dsimp only
  split
  next si found => exact fits.modify (find_lt found)
  next =>
    split
    next room =>
      have grown : Fits { t with count := t.count + 1 } := ⟨room, fun i hi => fits.above i (Nat.le_of_succ_le hi)⟩
      exact (grown.modify (Nat.lt_succ_self _)).modify (Nat.lt_succ_self _)
    next => exact fits

theorem used_install (fits : t.Fits) :
    (t.install cfg offer sender now).used = sessionInstall cfg offer sender now t.used := by
  unfold install sessionInstall
  dsimp only
  cases found : t.find sender with
  | some si =>
    rw [used_modify fits.bounded (find_lt found)]
    rw [find_eq fits.bounded] at found
    exact (Slots.put_of_found found).symm
  | none =>
    rw [find_eq fits.bounded] at found
    dsimp only
    split
    next room =>
      refine Eq.trans ?_ (Slots.put_of_room found (by rwa [length_used fits.bounded])).symm
      refine used_eq room (by rw [List.length_append, length_used fits.bounded]; rfl) fun i hi => ?_
      have hi : i < t.count + 1 := hi
      rw [get_modify room, get_modify room]
      rcases Nat.lt_or_ge i t.count with old | new
      · rw [if_neg (by omega), if_neg (by omega), List.getElem?_append_left (by rwa [length_used fits.bounded]),
          getElem?_used fits.bounded, if_pos old]
        rfl
      · obtain rfl : i = t.count := by omega
        rw [if_pos rfl, if_pos rfl, ← length_used fits.bounded, List.getElem?_concat_length]
    next full =>
      exact (Slots.put_of_full found (by rwa [length_used fits.bounded])).symm

end Operations

end SessionTable

/-! ### The array and the list -/

namespace UdpServer
variable {lib : OpenSsl} {b : Backend} {cfg : UdpConfig} {s t : UdpServer} {e : UdpEvent}

theorem DatagramEffect.pc {tunIn : Bool} {d : Octets} {sender : SockAddr} {now : Int64} {writes : List Sent}
    (h : DatagramEffect lib b cfg s tunIn d sender now writes t) : t.pc = s.pc ∨ ∃ offer, t.pc = .confirm offer tunIn := by
  rcases h with ⟨_, -, rfl⟩ | ⟨_, offer, _, -, -, rfl⟩ | ⟨-, -, rfl⟩ | ⟨_, _, -, -, -, -, -, rfl⟩ | ⟨_, _, _, -, -, -, -, -, rfl⟩
  · exact .inl rfl
  · exact .inr ⟨offer, rfl⟩
  · exact .inl rfl
  · exact .inl rfl
  · exact .inl rfl

theorem step_datagram {tunIn : Bool} (d : Octets) (sender : SockAddr) (now : Int64) (host : World) (writes : List Sent)
    (place : s.pc = .udp tunIn) : step lib b cfg s (.recv true (.dgram d sender) now host writes) =
      some (s.onDatagram lib b cfg tunIn d sender now host writes) := by
  simp only [step, place, Bool.not_true, Bool.false_eq_true, if_false]

theorem step_cleanup (lib : OpenSsl) (b : Backend) (cfg : UdpConfig) (now : Int64) (draws : Nat → Option (Word 8))
    (place : s.pc = .cleanup) : step lib b cfg s (.cleanup now draws) = some (s.onCleanup b cfg now draws) := by
  simp only [step, place]

theorem onCleanup_of_step {now : Int64} {draws : Nat → Option (Word 8)}
    (h : step lib b cfg s (.cleanup now draws) = some t) : t = s.onCleanup b cfg now draws := by
  simp only [step] at h
  split at h
  next => exact (Option.some.inj h).symm
  next => cases h

/-- The function is left in no other way than by `leave`. -/
theorem step_returned (h : step lib b cfg s e = some t) (returned : t.pc = .returned) : t = s.leave := by
  cases e with
  | round running answer =>
    simp only [step] at h
    split at h
    next place =>
      split at h
      · cases h; rfl
      · cases answer with
        | eintr => cases h; cases place.symm.trans returned
        | error => cases h; rfl
        | ready udpIn tunIn => cases udpIn <;> cases tunIn <;> cases h <;> cases returned
    next => cases h
  | recv running answer now host writes =>
    simp only [step] at h
    split at h
    next tunIn place =>
      cases running with
      | false => cases tunIn <;> cases h <;> cases returned
      | true =>
        cases answer with
        | again => cases tunIn <;> cases h <;> cases returned
        | error => cases h; cases place.symm.trans returned
        | dgram d sender =>
          cases h
          rcases (onDatagram_effect lib b cfg tunIn d sender now host writes s).pc with same | ⟨offer, waits⟩
          · cases place.symm.trans (same.symm.trans returned)
          · cases waits.symm.trans returned
    next => cases h
  | await running answer =>
    simp only [step] at h
    split at h
    next offer tunIn place =>
      cases running with
      | false => cases h; cases returned
      | true =>
        cases answer with
        | pollEintr => cases h; cases place.symm.trans returned
        | timeout => cases h; cases place.symm.trans returned
        | pollError => cases h; cases returned
        | error => cases h; cases returned
        | dgram d sender now =>
          cases h
          cases hc : udpConfirmed b offer.keys.decKey d with
          | true => rw [onConfirm_of_confirmed hc] at returned; cases returned
          | false => rw [onConfirm_of_not hc] at returned; cases returned
    next => cases h
  | read running answer draws =>
    simp only [step] at h
    split at h
    next place =>
      cases running with
      | false => cases h; cases returned
      | true =>
        cases answer with
        | again => cases h; cases returned
        | error => cases h; rfl
        | packet pkt =>
          simp only [Bool.not_true, Bool.false_eq_true, if_false] at h
          split at h
          · cases h; rfl
          · cases h; cases place.symm.trans returned
    next => cases h
  | cleanup now draws =>
    simp only [step] at h
    split at h
    next => cases h; cases returned
    next => cases h

end UdpServer

namespace ArrayServer
variable {lib : OpenSsl} {b : Backend} {cfg : UdpConfig} {a a' : ArrayServer} {s : UdpServer} {e : UdpEvent}

open UdpServer in
theorem onDatagram_spec {tunIn : Bool} {d : Octets} {sender : SockAddr} {now : Int64} {writes : List Sent}
    (fits : a.table.Fits) (h : DatagramEffect lib b cfg a.view tunIn d sender now writes s) :
    (a.table.onDatagram b d sender now).Fits ∧ (a.table.onDatagram b d sender now).used = s.sessions := by
  have unwritten (handshake : IsHandshake d) : a.table.onDatagram b d sender now = a.table := if_pos handshake
  have written (data : ¬ IsHandshake d) :
      a.table.onDatagram b d sender now = a.table.onData b (d.take udpMaxDgram) sender now := if_neg data
  rcases h with ⟨_, handshake, rfl⟩ | ⟨_, _, _, handshake, -, rfl⟩ | ⟨data, unknown, rfl⟩ |
    ⟨si, x, data, found, slot, -, parse, rfl⟩ | ⟨si, x, f, data, found, slot, -, parse, rfl⟩
  · rw [unwritten handshake]
    exact ⟨fits, rfl⟩
  · rw [unwritten handshake]
    exact ⟨fits, rfl⟩
  · rw [written data]
    exact ⟨fits.onData, SessionTable.used_onData_unknown fits unknown⟩
  · rw [written data]
    refine ⟨fits.onData, (SessionTable.used_onData fits found slot).trans ?_⟩
    cases hp : frameParseExplicit b (d.take udpMaxDgram) x.decKey with
    | malformed => rfl
    | rejected m => rfl
    | ok f => exact absurd hp (parse f)
  · rw [written data]
    refine ⟨fits.onData, (SessionTable.used_onData fits found slot).trans ?_⟩
    rw [parse]
    rfl

open UdpServer in
/-- The array after a step: it fits, and its slots in use are the table of the list model. -/
theorem tableAfter_spec (fits : a.table.Fits) (h : a.view.step lib b cfg e = some s) :
    (a.tableAfter b cfg e s).Fits ∧ (a.tableAfter b cfg e s).used = s.sessions := by
  unfold tableAfter
  split
  next tunIn d sender now host writes place =>
    rw [step_datagram d sender now host writes place] at h
    obtain rfl := Option.some.inj h
    exact onDatagram_spec fits (onDatagram_effect ..)
  next offer tunIn d sender now place =>
    rw [step_confirm lib b cfg d sender now place] at h
    obtain rfl := Option.some.inj h
    cases hc : udpConfirmed b offer.keys.decKey d with
    | true =>
      rw [onConfirm_of_confirmed hc]
      exact ⟨fits.install, SessionTable.used_install fits⟩
    | false =>
      rw [onConfirm_of_not hc]
      exact ⟨fits, rfl⟩
  next now draws place =>
    obtain rfl := onCleanup_of_step h
    exact ⟨fits.each, SessionTable.used_each fits.bounded⟩
  next other₁ other₂ other₃ =>
    split
    next returned =>
      rw [step_returned h returned]
      exact ⟨fits.each, SessionTable.used_each fits.bounded⟩
    next stays =>
      refine ⟨fits, ?_⟩
      rcases UdpServer.step_effect h with ⟨pc, -, -, rfl⟩ | ⟨-, rfl⟩ | ⟨tunIn, d, sender, now, host, writes, place, rfl, rfl⟩ |
        ⟨offer, tunIn, d, sender, now, place, rfl, rfl⟩ | ⟨pkt, draws, -, -, rfl⟩ | ⟨now, draws, place, rfl, rfl⟩
      · rfl
      · exact absurd rfl stays
      · exact (other₁ tunIn d sender now host writes place rfl).elim
      · exact (other₂ offer tunIn d sender now place rfl).elim
      · rfl
      · exact (other₃ now draws place rfl).elim

/-- The array server does what the server with the slots in use does. -/
theorem view_step (fits : a.table.Fits) : (a.step lib b cfg e).map view = a.view.step lib b cfg e := by
  cases h : a.view.step lib b cfg e with
  | none => rw [step, h]; rfl
  | some s =>
    have used := (tableAfter_spec fits h).2
    rw [step, h, Option.map_some, Option.map_some, view, used]

theorem step_view (fits : a.table.Fits) (h : a.step lib b cfg e = some a') :
    a.view.step lib b cfg e = some a'.view ∧ a'.table.Fits := by
  obtain ⟨s, hs, rfl⟩ := Option.map_eq_some_iff.mp h
  obtain ⟨fits', used⟩ := tableAfter_spec fits hs
  refine ⟨?_, fits'⟩
  rw [hs, view, used]

/-! ### Runs -/

/-- A run of the server from its start. -/
def Reachable (lib : OpenSsl) (b : Backend) (cfg : UdpConfig) (a : ArrayServer) : Prop :=
  Machine.Steps (step lib b cfg) (fun _ _ _ => True) init a

/-- What the source relies on: the count is within the array, the slots above it are dead, no two live
    sessions have the same address, and `session_find` finds the one of an address. -/
structure TableSound (t : SessionTable) : Prop where
  count_le : t.count ≤ udpMaxClients
  below : ∀ si, (t.get si).active = true → si < t.count
  unique : ∀ si sj, (t.get si).active = true → (t.get sj).active = true → (t.get si).addr.ip = (t.get sj).addr.ip → si = sj
  found : ∀ addr si, t.find addr = some si ↔ (t.get si).active = true ∧ (t.get si).addr.ip = addr.ip

end ArrayServer

namespace UdpServer
variable {lib : OpenSsl} {b : Backend} {cfg : UdpConfig} {s t : UdpServer} {e : UdpEvent}

/-- No two live sessions have the same address. -/
def DistinctAddresses (s : UdpServer) : Prop := Slots.Distinct (·.active) (·.addr.ip) s.sessions

theorem step_distinct (inv : DistinctAddresses s) (h : step lib b cfg s e = some t) : DistinctAddresses t := by
  unfold DistinctAddresses
  cases (step_table h).1 with
  | same sessions => rwa [sessions]
  | touched si x port lastSeen slot live sessions =>
    rw [sessions]
    refine inv.of_live fun i y hy livey => ?_
    rcases Slots.getElem?_set_cases slot hy with ⟨rfl, rfl⟩ | ⟨-, old⟩
    · exact ⟨x, slot, live, rfl⟩
    · exact ⟨y, old, livey, rfl⟩
  | installed offer tunIn d sender now waiting event confirmed received sessions =>
    rw [sessions]
    exact inv.put rfl fun _ => rfl
  | cleaned now sessions =>
    rw [sessions]
    refine inv.of_live fun i y hy livey => ?_
    rw [List.getElem?_map, Option.map_eq_some_iff] at hy
    obtain ⟨x, hx, rfl⟩ := hy
    rcases cleanup_cases cfg.keepalive now x with dead | ⟨lastSeen, kept⟩
    · rw [dead] at livey
      cases livey
    · rw [kept] at livey ⊢
      exact ⟨x, hx, livey, rfl⟩
  | left sessions =>
    rw [sessions]
    refine inv.of_live fun i y hy livey => ?_
    rw [List.getElem?_map, Option.map_eq_some_iff] at hy
    obtain ⟨x, -, rfl⟩ := hy
    cases livey

end UdpServer

namespace ArrayServer
variable {lib : OpenSsl} {b : Backend} {cfg : UdpConfig} {a : ArrayServer}

/-- What holds in every state of a run. -/
structure RunInv (a : ArrayServer) : Prop where
  fits : a.table.Fits
  distinct : a.view.DistinctAddresses

theorem Reachable.inv (run : Reachable lib b cfg a) : RunInv a := by
  refine run.invariant ⟨⟨Nat.zero_le _, fun i _ => ?_⟩, fun _ _ _ _ h => nomatch h⟩ fun inv h _ => ?_
  · show (List.replicate udpMaxClients UdpSession.zeroed).getD i .zeroed = .zeroed
    rw [List.getD_eq_getElem?_getD, List.getElem?_replicate]
    split <;> rfl
  · obtain ⟨hview, fits⟩ := step_view inv.fits h
    exact ⟨fits, UdpServer.step_distinct inv.distinct hview⟩

/-- The runs of the array server are those of the server with the slots in use. -/
theorem exists_view {s : UdpServer} (run : UdpServer.Reachable lib b cfg s) : ∃ a, Reachable lib b cfg a ∧ a.view = s := by
  induction run with
  | refl => exact ⟨init, .refl, rfl⟩
  | @tail s t e _ taken _ ih =>
    obtain ⟨a, run, rfl⟩ := ih
    have hview : (a.step lib b cfg e).map view = some t := (view_step run.inv.fits).trans taken
    obtain ⟨a', hstep, rfl⟩ := Option.map_eq_some_iff.mp hview
    exact ⟨a', .tail run hstep trivial, rfl⟩

/-- The session table is sound in every state that the server reaches. -/
theorem session_table_sound (run : Reachable lib b cfg a) : TableSound a.table := by
  obtain ⟨⟨bounded, above⟩, distinct⟩ := Reachable.inv run
  have below : ∀ si, (a.table.get si).active = true → si < a.table.count := fun si live => by
    by_contra high
    rw [above si (by omega)] at live
    cases live
  have slot : ∀ si, (a.table.get si).active = true → a.view.sessions[si]? = some (a.table.get si) := fun si live => by
    rw [view, SessionTable.getElem?_used bounded, if_pos (below si live)]
  refine ⟨bounded, below, fun si sj hi hj same => distinct (slot si hi) (slot sj hj) hi hj same, fun addr si => ?_⟩
  rw [SessionTable.find_eq bounded]
  refine distinct.find_eq_some_iff.trans ⟨?_, fun h => ⟨_, slot si h.1, h⟩⟩
  rintro ⟨x, hx, live⟩
  rw [view, SessionTable.getElem?_used bounded] at hx
  split at hx
  · rwa [Option.some.inj hx]
  · cases hx

theorem session_table_sound_carol :
    ∃ a, Reachable udpSsl .pureC bobConfig a ∧ (a.table.get 0).active = true ∧ TableSound a.table := by
  obtain ⟨s, run, -, -, hsessions, -⟩ := UdpServer.carol_joined 4000
  obtain ⟨a, run', rfl⟩ := exists_view run
  have first : a.table.used[0]? = _ := congrArg (·[0]?) hsessions
  rw [SessionTable.getElem?_used run'.inv.fits.bounded] at first
  split at first
  · refine ⟨a, run', ?_, session_table_sound run'⟩
    rw [Option.some.inj first]
  · cases first

end ArrayServer

end AegisTunnel
