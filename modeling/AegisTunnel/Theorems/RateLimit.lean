import AegisTunnel.Lib.Spans
import AegisTunnel.Theorems.Routing
import AegisTunnel.Theorems.TcpServer

/-! The rate limit over whole histories. An address has at most one window in the table, and its own calls find it
    there unless calls for other addresses have taken its slot. -/

namespace AegisTunnel
open Octets

/-! ### The entry of an address -/

namespace RateTable
variable {t : RateTable} {ip other : List Char} {now : Int64}

/-- No address has two slots. -/
def Distinct (t : RateTable) : Prop :=
  ∀ i j, (t.slots.get i).ip ≠ [] → (t.slots.get i).ip = (t.slots.get j).ip → i = j

def entryOf (t : RateTable) (ip : List Char) : Option RateEntry := (t.slotOf ip).map t.slots.get

theorem slotOf_eq_some_iff (distinct : t.Distinct) {i : Fin rateMaxIps} :
    t.slotOf ip = some i ↔ (t.slots.get i).ip = ip ∧ ip ≠ [] := by
  constructor
  · exact slotOf_eq_some
  · rintro ⟨rfl, some_⟩
    cases found : t.slotOf (t.slots.get i).ip with
    | none =>
      have none_ := List.find?_eq_none.mp found i (List.mem_finRange i)
      simp [some_] at none_
    | some j =>
      obtain ⟨same, _⟩ := slotOf_eq_some found
      exact congrArg some (distinct i j some_ same.symm).symm

theorem slotOf_eq_none (none_ : t.slotOf ip = none) (some_ : ip ≠ []) (i : Fin rateMaxIps) : (t.slots.get i).ip ≠ ip := by
  intro same
  have missed := List.find?_eq_none.mp none_ i (List.mem_finRange i)
  simp [same, some_] at missed

theorem distinct_rateInit : rateInit.Distinct := by
  intro i j some_
  exact absurd (by simp [rateInit]) some_

/-- The slot `i` is given to `e`, whose address has no other slot. -/
theorem Distinct.set (distinct : t.Distinct) (i : Fin rateMaxIps) (e : RateEntry) (next : Fin rateMaxIps)
    (alone : ∀ j, j ≠ i → e.ip ≠ [] → (t.slots.get j).ip ≠ e.ip) : Distinct ⟨t.slots.set i e, next⟩ := by
  intro j k some_ same
  dsimp only at some_ same
  by_cases hj : i = j
  · subst hj
    by_contra hk
    rw [List.Vector.get_set_same, List.Vector.get_set_of_ne hk] at same
    rw [List.Vector.get_set_same] at some_
    exact alone k (fun eq => hk eq.symm) some_ same.symm
  · rw [List.Vector.get_set_of_ne hj] at some_ same
    by_cases hk : i = k
    · subst hk
      rw [List.Vector.get_set_same] at same
      exact absurd same (alone j (fun eq => hj eq.symm) (same ▸ some_))
    · rw [List.Vector.get_set_of_ne hk] at same
      exact distinct j k some_ same

theorem entryOf_set_self (i : Fin rateMaxIps) (e : RateEntry) (next : Fin rateMaxIps) (some_ : e.ip ≠ [])
    (distinct : Distinct ⟨t.slots.set i e, next⟩) : entryOf ⟨t.slots.set i e, next⟩ e.ip = some e := by
  have slot : slotOf ⟨t.slots.set i e, next⟩ e.ip = some i :=
    (slotOf_eq_some_iff distinct).mpr ⟨by rw [List.Vector.get_set_same], some_⟩
  rw [entryOf, slot, Option.map_some, List.Vector.get_set_same]

/-- Another address keeps its entry, unless it was in the slot. -/
theorem entryOf_set_other (i : Fin rateMaxIps) (e : RateEntry) (next : Fin rateMaxIps) (ne : e.ip ≠ ip)
    (distinct : t.Distinct) (distinct' : Distinct ⟨t.slots.set i e, next⟩) :
    entryOf ⟨t.slots.set i e, next⟩ ip = if t.slotOf ip = some i then none else t.entryOf ip := by
  split
  next at_ =>
    rw [entryOf, Option.map_eq_none_iff]
    by_contra found
    obtain ⟨j, found⟩ := Option.ne_none_iff_exists'.mp found
    obtain ⟨same, some_⟩ := slotOf_eq_some found
    dsimp only at same
    by_cases hj : i = j
    · subst hj
      rw [List.Vector.get_set_same] at same
      exact ne same
    · rw [List.Vector.get_set_of_ne hj] at same
      exact hj (Option.some.inj (at_.symm.trans ((slotOf_eq_some_iff distinct).mpr ⟨same, some_⟩)))
  next other =>
    rw [entryOf, entryOf]
    cases found : t.slotOf ip with
    | some j =>
      obtain ⟨same, some_⟩ := slotOf_eq_some found
      have hj : i ≠ j := fun eq => other (eq ▸ found)
      have slot : slotOf ⟨t.slots.set i e, next⟩ ip = some j :=
        (slotOf_eq_some_iff distinct').mpr ⟨by dsimp only; rw [List.Vector.get_set_of_ne hj]; exact same, some_⟩
      rw [slot, Option.map_some, Option.map_some, List.Vector.get_set_of_ne hj]
    | none =>
      rw [Option.map_none, Option.map_eq_none_iff]
      by_contra found'
      obtain ⟨j, found'⟩ := Option.ne_none_iff_exists'.mp found'
      obtain ⟨same, some_⟩ := slotOf_eq_some found'
      dsimp only at same
      by_cases hj : i = j
      · subst hj
        rw [List.Vector.get_set_same] at same
        exact ne same
      · rw [List.Vector.get_set_of_ne hj] at same
        exact slotOf_eq_none found some_ j same

/-- What the limit does for one address on its own: whether the attempt is allowed, and the window after it. -/
def ownCheck (ip : List Char) (now : Int64) : Option RateEntry → Bool × RateEntry
  | none => (true, ⟨ip, 1, now⟩)
  | some e =>
    if now - e.windowStart > rateWindowSec then (true, ⟨ip, 1, now⟩)
    else (!(e.count + 1 > rateMaxAttempts), { e with count := e.count + 1 })

/-- The slot that a call writes, with the window that it finds or starts there. -/
theorem check_eq (t : RateTable) (now : Int64) (fits : ip.take (inetAddrstrlen - 1) = ip) :
    ∃ i next, handshakeRateCheck ip now t =
        ((ownCheck ip now (t.entryOf ip)).1, ⟨t.slots.set i (ownCheck ip now (t.entryOf ip)).2, next⟩) ∧
      (t.slotOf ip = some i ∨ t.slotOf ip = none) ∧ (ownCheck ip now (t.entryOf ip)).2.ip = ip := by
  unfold handshakeRateCheck entryOf
  cases found : t.slotOf ip with
  | some i =>
    obtain ⟨same, _⟩ := slotOf_eq_some found
    dsimp only [Option.map_some, ownCheck]
    by_cases ended : now - (t.slots.get i).windowStart > rateWindowSec
    · refine ⟨i, t.nextSlot, ?_, .inl rfl, ?_⟩
      · simp only [if_pos ended, same]
      · simp only [if_pos ended]
    · refine ⟨i, t.nextSlot, ?_, .inl rfl, ?_⟩
      · simp only [if_neg ended]
      · simp only [if_neg ended]
        exact same
  | none =>
    rw [fits]
    exact ⟨_, _, rfl, .inr rfl, rfl⟩

theorem Distinct.check (distinct : t.Distinct) (now : Int64) (some_ : ip ≠ []) (fits : ip.take (inetAddrstrlen - 1) = ip) :
    (handshakeRateCheck ip now t).2.Distinct := by
  obtain ⟨i, next, eq, slot, same⟩ := check_eq t now fits
  rw [eq]
  refine distinct.set i _ next fun j hj _ taken => ?_
  rw [same] at taken
  rcases slot with found | none_
  · exact hj (Option.some.inj (((slotOf_eq_some_iff distinct).mpr ⟨taken, some_⟩).symm.trans found))
  · exact slotOf_eq_none none_ some_ j taken

theorem check_own (t : RateTable) (now : Int64) (distinct : t.Distinct) (some_ : ip ≠ [])
    (fits : ip.take (inetAddrstrlen - 1) = ip) :
    (handshakeRateCheck ip now t).1 = (ownCheck ip now (t.entryOf ip)).1 ∧
      (handshakeRateCheck ip now t).2.entryOf ip = some (ownCheck ip now (t.entryOf ip)).2 := by
  have distinct' := distinct.check now some_ fits
  obtain ⟨i, next, eq, _, same⟩ := check_eq t now fits
  rw [eq] at distinct' ⊢
  have entry := entryOf_set_self i _ next (by rw [same]; exact some_) distinct'
  rw [same] at entry
  exact ⟨rfl, entry⟩

/-- A call for another address leaves the entry as it is, or takes its slot. -/
theorem check_other (distinct : t.Distinct) (some_ : other ≠ []) (fits : other.take (inetAddrstrlen - 1) = other)
    (ne : other ≠ ip) :
    (handshakeRateCheck other now t).2.entryOf ip = t.entryOf ip ∨ (handshakeRateCheck other now t).2.entryOf ip = none := by
  have distinct' := distinct.check now some_ fits
  obtain ⟨i, next, eq, _, same⟩ := check_eq t now fits
  rw [eq] at distinct' ⊢
  rw [entryOf_set_other i _ next (by rw [same]; exact ne) distinct distinct']
  split
  · exact .inr rfl
  · exact .inl rfl

end RateTable

/-! ### The calls for one address -/

/-- One call, and its verdict if it is for `x`. -/
def rateCall (x : UInt32) (s : RateTable × List Bool) (c : UInt32 × Int64) : RateTable × List Bool :=
  let r := handshakeRateCheck (inetNtop c.1) c.2 s.1
  (r.2, if c.1 = x then s.2 ++ [r.1] else s.2)

/-- The table after some calls, and the verdicts for `x` among them. -/
def rateRun (x : UInt32) (calls : List (UInt32 × Int64)) : RateTable × List Bool := calls.foldl (rateCall x) (rateInit, [])

def ownCalls (x : UInt32) (calls : List (UInt32 × Int64)) : List (UInt32 × Int64) := calls.filter fun c => c.1 == x

/-- At a call for `x` its entry is gone, while after the calls for `x` alone its window would still be running. -/
def WindowLost (x : UInt32) (calls : List (UInt32 × Int64)) (now : Int64) : Prop :=
  (rateRun x calls).1.entryOf (inetNtop x) = none ∧
    ∃ e, (rateRun x (ownCalls x calls)).1.entryOf (inetNtop x) = some e ∧ ¬ now - e.windowStart > rateWindowSec

def KeepsWindow (x : UInt32) (calls : List (UInt32 × Int64)) : Prop :=
  ∀ before now, before ++ [(x, now)] <+: calls → ¬ WindowLost x before now

section
variable {x : UInt32} {calls : List (UInt32 × Int64)} {c : UInt32 × Int64} {now : Int64}

theorem rateRun_concat : rateRun x (calls ++ [c]) = rateCall x (rateRun x calls) c := by
  rw [rateRun, List.foldl_append]
  rfl

theorem ownCalls_concat : ownCalls x (calls ++ [c]) = ownCalls x calls ++ if c.1 = x then [c] else [] := by
  rw [ownCalls, List.filter_append, ownCalls]
  by_cases own : c.1 = x
  · simp [own]
  · simp [own]

theorem distinct_rateRun : (rateRun x calls).1.Distinct := by
  induction calls using List.reverseRecOn with
  | nil => exact RateTable.distinct_rateInit
  | append_singleton calls c ih =>
    rw [rateRun_concat]
    exact ih.check c.2 (inetNtop_fits c.1).1 (inetNtop_fits c.1).2

theorem rateRun_own (x : UInt32) (calls : List (UInt32 × Int64)) (now : Int64) :
    (rateRun x (calls ++ [(x, now)])).2 = (rateRun x calls).2 ++
      [(RateTable.ownCheck (inetNtop x) now ((rateRun x calls).1.entryOf (inetNtop x))).1] ∧
    (rateRun x (calls ++ [(x, now)])).1.entryOf (inetNtop x) =
      some (RateTable.ownCheck (inetNtop x) now ((rateRun x calls).1.entryOf (inetNtop x))).2 := by
  obtain ⟨some_, fits⟩ := inetNtop_fits x
  obtain ⟨verdict, entry⟩ := (rateRun x calls).1.check_own now distinct_rateRun some_ fits
  rw [rateRun_concat, rateCall, ← verdict]
  exact ⟨if_pos rfl, entry⟩

theorem rateRun_other (calls : List (UInt32 × Int64)) (other : c.1 ≠ x) : (rateRun x (calls ++ [c])).2 = (rateRun x calls).2 ∧
    ((rateRun x (calls ++ [c])).1.entryOf (inetNtop x) = (rateRun x calls).1.entryOf (inetNtop x) ∨
      (rateRun x (calls ++ [c])).1.entryOf (inetNtop x) = none) := by
  obtain ⟨some_, fits⟩ := inetNtop_fits c.1
  rw [rateRun_concat]
  exact ⟨if_neg other, RateTable.check_other distinct_rateRun some_ fits fun same => other (inetNtop_injective same)⟩

/-- The run with the calls for other addresses against the one without: the entry is the same or lost. -/
structure Simulates (x : UInt32) (calls : List (UInt32 × Int64)) : Prop where
  verdicts : (rateRun x calls).2 = (rateRun x (ownCalls x calls)).2
  entry : (rateRun x calls).1.entryOf (inetNtop x) = (rateRun x (ownCalls x calls)).1.entryOf (inetNtop x) ∨
    (rateRun x calls).1.entryOf (inetNtop x) = none
  counted : ∀ e, (rateRun x (ownCalls x calls)).1.entryOf (inetNtop x) = some e → 1 ≤ e.count

theorem one_le_count_ownCheck {ip : List Char} {o : Option RateEntry} (h : ∀ e, o = some e → 1 ≤ e.count) :
    1 ≤ (RateTable.ownCheck ip now o).2.count := by
  cases o with
  | none => exact le_refl 1
  | some e =>
    unfold RateTable.ownCheck
    dsimp only
    split
    · exact le_refl 1
    · exact Nat.le_add_left 1 e.count

/-- Where the window is not lost, the call finds what it would find on its own. -/
theorem Simulates.ownCheck_eq (sim : Simulates x calls) (kept : ¬ WindowLost x calls now) :
    RateTable.ownCheck (inetNtop x) now ((rateRun x calls).1.entryOf (inetNtop x)) =
      RateTable.ownCheck (inetNtop x) now ((rateRun x (ownCalls x calls)).1.entryOf (inetNtop x)) := by
  rcases sim.entry with same | gone
  · rw [same]
  · rw [gone]
    cases own : (rateRun x (ownCalls x calls)).1.entryOf (inetNtop x) with
    | none => rfl
    | some e =>
      have ended : now - e.windowStart > rateWindowSec := by
        by_contra running
        exact kept ⟨gone, e, own, running⟩
      simp only [RateTable.ownCheck, if_pos ended]

theorem Simulates.concat (sim : Simulates x calls) (kept : ∀ now, c = (x, now) → ¬ WindowLost x calls now) :
    Simulates x (calls ++ [c]) := by
  obtain ⟨ip, now⟩ := c
  by_cases own : ip = x
  · subst own
    have same := sim.ownCheck_eq (kept now rfl)
    obtain ⟨verdict, entry⟩ := rateRun_own ip calls now
    obtain ⟨verdict', entry'⟩ := rateRun_own ip (ownCalls ip calls) now
    rw [← same] at verdict' entry'
    refine ⟨?_, .inl ?_, ?_⟩
    · rw [ownCalls_concat, if_pos rfl, verdict, verdict', sim.verdicts]
    · rw [ownCalls_concat, if_pos rfl, entry, entry']
    · intro e found
      rw [ownCalls_concat, if_pos rfl, entry', same] at found
      exact Option.some.inj found ▸ one_le_count_ownCheck sim.counted
  · obtain ⟨verdict, entry⟩ := rateRun_other (x := x) (c := (ip, now)) calls own
    have calls_ : ownCalls x (calls ++ [(ip, now)]) = ownCalls x calls := by
      rw [ownCalls_concat, if_neg own, List.append_nil]
    refine ⟨?_, ?_, ?_⟩
    · rw [calls_, verdict, sim.verdicts]
    · rw [calls_]
      rcases entry with same | gone
      · rw [same]
        exact sim.entry
      · exact .inr gone
    · rw [calls_]
      exact sim.counted

theorem simulates_of_keepsWindow (kept : KeepsWindow x calls) : Simulates x calls := by
  induction calls using List.reverseRecOn with
  | nil => exact ⟨rfl, .inl rfl, fun e found => by cases found⟩
  | append_singleton calls c ih =>
    have before : KeepsWindow x calls := fun before now part => kept before now (part.trans (List.prefix_append _ _))
    exact (ih before).concat fun now own => kept calls now (own ▸ List.prefix_rfl)

/-- A call leaves the entry that it would leave on its own exactly if the window was not lost. -/
theorem Simulates.entry_iff (sim : Simulates x calls) :
    (rateRun x (calls ++ [(x, now)])).1.entryOf (inetNtop x) =
      (rateRun x (ownCalls x calls ++ [(x, now)])).1.entryOf (inetNtop x) ↔ ¬ WindowLost x calls now := by
  rw [(rateRun_own x calls now).2, (rateRun_own x (ownCalls x calls) now).2]
  constructor
  · rintro same ⟨gone, e, own, running⟩
    have counts := congrArg RateEntry.count (Option.some.inj same)
    rw [gone, own] at counts
    simp only [RateTable.ownCheck, if_neg running] at counts
    have := sim.counted e own
    omega
  · intro kept
    rw [sim.ownCheck_eq kept]

end

/-- For two sequences with the same calls for `x`, in both of which each of them finds the window of `x` as long
    as it runs, the verdicts for `x` are the same; what a further call leaves in the table for `x` depends on no other
    calls exactly if it finds that window again. -/
theorem rate_verdicts_independent (x : UInt32) (calls calls' : List (UInt32 × Int64))
    (same : ownCalls x calls = ownCalls x calls') (kept : KeepsWindow x calls) (kept' : KeepsWindow x calls') :
    (rateRun x calls).2 = (rateRun x calls').2 ∧
      ∀ now, (rateRun x (calls ++ [(x, now)])).1.entryOf (inetNtop x) =
          (rateRun x (ownCalls x calls ++ [(x, now)])).1.entryOf (inetNtop x) ↔ ¬ WindowLost x calls now := by
  have sim := simulates_of_keepsWindow kept
  have sim' := simulates_of_keepsWindow kept'
  exact ⟨by rw [sim.verdicts, sim'.verdicts, same], fun now => sim.entry_iff⟩

/-! ### An address that is forgotten -/

def blockedIp : UInt32 := 0xc0000201

/-- Six attempts within a second, the last of which is refused. -/
def sixCalls : List (UInt32 × Int64) := List.replicate 6 (blockedIp, 1000)

/-- One attempt each from as many other addresses as the table has slots. -/
def otherCalls : List (UInt32 × Int64) := (List.range 32).map fun n => (0xcb007100 + UInt32.ofNat n, 1000)

/-- A blocked address is admitted again, within its window, after calls for 32 others. -/
theorem blocked_ip_forgotten :
    ownCalls blockedIp (sixCalls ++ otherCalls ++ [(blockedIp, 1001)]) = ownCalls blockedIp (sixCalls ++ [(blockedIp, 1001)]) ∧
      (rateRun blockedIp (sixCalls ++ [(blockedIp, 1001)])).2 = [true, true, true, true, true, false, false] ∧
      (rateRun blockedIp (sixCalls ++ otherCalls ++ [(blockedIp, 1001)])).2 =
        [true, true, true, true, true, false, true] := by
  decide +kernel

theorem KeepsWindow.nil (x : UInt32) : KeepsWindow x [] := fun before now part => by
  simp at part

theorem KeepsWindow.concat {x : UInt32} {calls : List (UInt32 × Int64)} {c : UInt32 × Int64} (kept : KeepsWindow x calls)
    (last : ∀ now, c = (x, now) → ¬ WindowLost x calls now) : KeepsWindow x (calls ++ [c]) := by
  intro before now part
  rcases List.prefix_concat_iff.mp part with whole | earlier
  · obtain ⟨rfl, same⟩ := List.append_inj' whole rfl
    exact last now (List.singleton_inj.mp same).symm
  · exact kept before now earlier

/-- One other address between two attempts changes nothing. -/
theorem rate_verdicts_independent_two :
    (rateRun blockedIp [(blockedIp, 1000), (1, 1000), (blockedIp, 1001)]).2 = [true, true] ∧
      (rateRun blockedIp [(blockedIp, 1000), (1, 1000), (blockedIp, 1001)]).2 =
        (rateRun blockedIp [(blockedIp, 1000), (blockedIp, 1001)]).2 := by
  have first : KeepsWindow blockedIp ([] ++ [(blockedIp, 1000)]) :=
    (KeepsWindow.nil blockedIp).concat fun now _ lost => by
      obtain ⟨_, e, own, _⟩ := lost
      cases own
  have found : (rateRun blockedIp [(blockedIp, 1000), (1, 1000)]).1.entryOf (inetNtop blockedIp) ≠ none ∧
      (rateRun blockedIp [(blockedIp, 1000)]).1.entryOf (inetNtop blockedIp) ≠ none := by decide +kernel
  refine ⟨by decide +kernel, (rate_verdicts_independent blockedIp [(blockedIp, 1000), (1, 1000), (blockedIp, 1001)]
    [(blockedIp, 1000), (blockedIp, 1001)] (by decide) ?_ ?_).1⟩
  · exact (first.concat fun now other => by cases other).concat fun now _ lost => found.1 lost.1
  · exact first.concat fun now _ lost => found.2 lost.1

/-! ### Attempts -/

/-- An attempt to get a handshake with a server: its address and time, whether it is taken for the first of a new
    window, whether it is let in without being counted, and whether the handshake takes place. -/
structure HsAttempt where
  ip : UInt32
  now : Int64
  opens : Bool
  uncounted : Bool
  admitted : Bool

/-- The table holds a window of the address that is running. -/
def RateTable.hasWindow (t : RateTable) (ip : UInt32) (now : Int64) : Bool :=
  (t.entryOf (inetNtop ip)).any fun e => !(now - e.windowStart > rateWindowSec)

def TcpServer.hsAttempt (cfg : TcpConfig) (s : TcpServer) : TcpEvent → Option HsAttempt
  | .accept conn => some
      { ip := conn.ip
        now := conn.now
        opens := s.activeConns < cfg.maxConns && cfg.mode != .tun && !s.rate.hasWindow conn.ip conn.now
        uncounted := s.activeConns < cfg.maxConns && cfg.mode == .tun
        admitted := (s.onAccept cfg conn).children.length > s.children.length }
  | _ => none

def UdpServer.hsAttempt (s : UdpServer) : UdpEvent → Option HsAttempt
  | .recv true (.dgram d sender) now _ _ =>
    if udpHsDgram ≤ (d.take udpMaxDgram).length ∧ (d.take udpMaxDgram).getD 0 0 = frameHandshake then some
      { ip := sender.ip
        now := now
        opens := !s.rate.hasWindow sender.ip now
        uncounted := false
        admitted := (handshakeRateCheck (inetNtop sender.ip) now s.rate).1 }
    else none
  | _ => none

/-- The times of the handshakes of an address. -/
def admittedTimes (x : UInt32) (log : List HsAttempt) : List Int :=
  (log.filter fun a => a.ip == x && a.admitted).map fun a => a.now.toInt

/-- The attempt comes no earlier than those before it; if it opens a window, a whole minute after the last handshake of
    its address; and if it is not counted, with fewer than five handshakes of its address in the minute before. -/
structure SpacedAttempt (log : List HsAttempt) (a : HsAttempt) : Prop where
  order : ∀ b ∈ log, b.now ≤ a.now
  window : a.opens = true → ∀ b ∈ log, b.ip = a.ip → b.admitted = true → b.now.toInt + 60 ≤ a.now.toInt
  few : a.uncounted = true → (admittedTimes a.ip log).countP (fun t => a.now.toInt < t + 60) < rateMaxAttempts

def Spaced (log : List HsAttempt) (a? : Option HsAttempt) : Prop := ∀ a, a? = some a → SpacedAttempt log a

/-- What the table and the history say about an address: the handshakes before its window are a minute older than
    this, and those since are counted in it. -/
structure WindowInv (x : UInt32) (t : RateTable) (log : List HsAttempt) : Prop where
  spans : Spans.AtMost rateMaxAttempts 60 (admittedTimes x log)
  running : ∀ e, t.entryOf (inetNtop x) = some e → (∃ b ∈ log, b.now = e.windowStart) ∧
    ∃ before since, admittedTimes x log = before ++ since ∧ (∀ a ∈ before, a + 60 ≤ e.windowStart.toInt) ∧
      since.length ≤ e.count

section
variable {x : UInt32} {t t' : RateTable} {log : List HsAttempt} {a : HsAttempt}

theorem admittedTimes_concat : admittedTimes x (log ++ [a]) =
    admittedTimes x log ++ if a.ip = x ∧ a.admitted = true then [a.now.toInt] else [] := by
  rw [admittedTimes, List.filter_append, List.map_append, admittedTimes]
  by_cases own : a.ip = x
  · cases admitted : a.admitted <;> simp [own, admitted]
  · simp [own]

theorem mem_admittedTimes {time : Int} : time ∈ admittedTimes x log ↔
    ∃ b ∈ log, b.ip = x ∧ b.admitted = true ∧ b.now.toInt = time := by
  simp only [admittedTimes, List.mem_map, List.mem_filter, Bool.and_eq_true, beq_iff_eq]
  constructor
  · rintro ⟨b, ⟨member, own, admitted⟩, time⟩
    exact ⟨b, member, own, admitted, time⟩
  · rintro ⟨b, member, own, admitted, time⟩
    exact ⟨b, ⟨member, own, admitted⟩, time⟩

/-- The history grows by an attempt that does not concern the address. -/
theorem WindowInv.other (inv : WindowInv x t log) (same : admittedTimes x (log ++ [a]) = admittedTimes x log)
    (entry : t'.entryOf (inetNtop x) = t.entryOf (inetNtop x) ∨ t'.entryOf (inetNtop x) = none) :
    WindowInv x t' (log ++ [a]) := by
  refine ⟨same ▸ inv.spans, fun e found => ?_⟩
  rcases entry with kept | gone
  · obtain ⟨⟨b, member, start⟩, split⟩ := inv.running e (kept ▸ found)
    exact ⟨⟨b, List.mem_append_left _ member, start⟩, same ▸ split⟩
  · rw [gone] at found
    cases found

/-- An attempt that opens a window. -/
theorem WindowInv.opens (inv : WindowInv a.ip t log)
    (late : ∀ b ∈ log, b.ip = a.ip → b.admitted = true → b.now.toInt + 60 ≤ a.now.toInt)
    (entry : ∀ e, t'.entryOf (inetNtop a.ip) = some e → e.count = 1 ∧ e.windowStart = a.now) :
    WindowInv a.ip t' (log ++ [a]) := by
  have far : ∀ time ∈ admittedTimes a.ip log, time + 60 ≤ a.now.toInt := by
    intro time member
    obtain ⟨b, known, own, admitted, rfl⟩ := mem_admittedTimes.mp member
    exact late b known own admitted
  refine ⟨?_, fun e found => ?_⟩
  · rw [admittedTimes_concat]
    split
    · have near : (admittedTimes a.ip log ++ []).countP (fun t => a.now.toInt < t + 60) ≤ 0 := Spans.near_le far
      rw [List.append_nil] at near
      exact inv.spans.concat (near.trans_lt (by decide))
    · rw [List.append_nil]
      exact inv.spans
  · obtain ⟨count, start⟩ := entry e found
    refine ⟨⟨a, List.mem_append_right _ (List.mem_singleton_self a), start.symm⟩, _, _, admittedTimes_concat, ?_, ?_⟩
    · rw [start]
      exact far
    · rw [count]
      split <;> simp

/-- An attempt within a running window. -/
theorem WindowInv.counts {e : RateEntry} (inv : WindowInv a.ip t log) (order : ∀ b ∈ log, b.now ≤ a.now)
    (found : t.entryOf (inetNtop a.ip) = some e) (few : a.admitted = true → e.count + 1 ≤ rateMaxAttempts)
    (entry : t'.entryOf (inetNtop a.ip) = some { e with count := e.count + 1 }) : WindowInv a.ip t' (log ++ [a]) := by
  obtain ⟨⟨b, member, start⟩, before, since, split, far, counted⟩ := inv.running e found
  have later : e.windowStart.toInt ≤ a.now.toInt := Int64.le_iff_toInt_le.mp (start ▸ order b member)
  refine ⟨?_, fun e' found' => ?_⟩
  · rw [admittedTimes_concat, split]
    split_ifs with own
    · have := few own.2
      have near : (before ++ since).countP (fun t => a.now.toInt < t + 60) ≤ since.length :=
        Spans.near_le fun time member => (far time member).trans later
      exact (split ▸ inv.spans : Spans.AtMost rateMaxAttempts 60 (before ++ since)).concat (by omega)
    · rw [List.append_nil, ← split]
      exact inv.spans
  · obtain rfl := Option.some.inj (entry.symm.trans found')
    refine ⟨⟨b, List.mem_append_left _ member, start⟩, before,
      since ++ if a.ip = a.ip ∧ a.admitted = true then [a.now.toInt] else [], ?_, far, ?_⟩
    · rw [admittedTimes_concat, split, List.append_assoc]
    · rw [List.length_append]
      refine Nat.add_le_add counted ?_
      split_ifs <;> simp

/-- The table and the history of a server. -/
structure RateInv (t : RateTable) (log : List HsAttempt) : Prop where
  distinct : t.Distinct
  window : ∀ x, WindowInv x t log

theorem RateInv.init : RateInv rateInit [] := by
  refine ⟨RateTable.distinct_rateInit, fun x => ⟨.nil, fun e found => ?_⟩⟩
  obtain ⟨i, slot, rfl⟩ := Option.map_eq_some_iff.mp found
  obtain ⟨same, some_⟩ := RateTable.slotOf_eq_some slot
  exact absurd (same.symm.trans (by simp [rateInit])) some_

theorem admittedTimes_other (other : ¬ (a.ip = x ∧ a.admitted = true)) :
    admittedTimes x (log ++ [a]) = admittedTimes x log := by
  rw [admittedTimes_concat, if_neg other, List.append_nil]

/-- An attempt that is turned away before the check. -/
theorem RateInv.refused (inv : RateInv t log) (no : a.admitted = false) : RateInv t (log ++ [a]) := by
  refine ⟨inv.distinct, fun x => (inv.window x).other (admittedTimes_other fun own => ?_) (.inl rfl)⟩
  rw [no] at own
  cases own.2

/-- An attempt at a server that keeps no table. -/
theorem RateInv.unchecked (inv : RateInv rateInit log) (uncounted : a.uncounted = true) (spaced : Spaced log (some a)) :
    RateInv rateInit (log ++ [a]) := by
  refine ⟨inv.distinct, fun x => ?_⟩
  by_cases own : a.ip = x
  · subst own
    refine ⟨?_, fun e found => ?_⟩
    · rw [admittedTimes_concat]
      split
      · exact (inv.window a.ip).spans.concat ((spaced a rfl).few uncounted)
      · rw [List.append_nil]
        exact (inv.window a.ip).spans
    · obtain ⟨⟨b, member, _⟩, _⟩ := (RateInv.init.window a.ip).running e found
      cases member
  · exact (inv.window x).other (admittedTimes_other fun same => own same.1) (.inl rfl)

/-- An attempt that the limit is asked about. -/
theorem RateInv.checked (inv : RateInv t log) (spaced : Spaced log (some a))
    (opens : a.opens = !t.hasWindow a.ip a.now)
    (admitted : a.admitted = true → (handshakeRateCheck (inetNtop a.ip) a.now t).1 = true) :
    RateInv (handshakeRateCheck (inetNtop a.ip) a.now t).2 (log ++ [a]) := by
  obtain ⟨some_, fits⟩ := inetNtop_fits a.ip
  refine ⟨inv.distinct.check a.now some_ fits, fun x => ?_⟩
  by_cases own : a.ip = x
  · subst own
    obtain ⟨verdict, entry⟩ := t.check_own a.now inv.distinct some_ fits
    rw [verdict] at admitted
    -- A new window, or one more attempt in the one that runs.
    have new : a.opens = true → (RateTable.ownCheck (inetNtop a.ip) a.now (t.entryOf (inetNtop a.ip))).2 =
        ⟨inetNtop a.ip, 1, a.now⟩ → WindowInv a.ip (handshakeRateCheck (inetNtop a.ip) a.now t).2 (log ++ [a]) := by
      intro first eq
      refine (inv.window a.ip).opens ((spaced a rfl).window first) fun e found => ?_
      obtain rfl := Option.some.inj (found.symm.trans (entry.trans (congrArg some eq)))
      exact ⟨rfl, rfl⟩
    unfold RateTable.hasWindow at opens
    cases found : t.entryOf (inetNtop a.ip) with
    | none =>
      rw [found] at opens new
      exact new opens rfl
    | some e =>
      rw [found] at opens new admitted entry
      by_cases ended : a.now - e.windowStart > rateWindowSec
      · refine new ?_ ?_
        · rw [opens]
          simp [ended]
        · simp only [RateTable.ownCheck, if_pos ended]
      · simp only [RateTable.ownCheck, if_neg ended] at admitted entry
        refine (inv.window a.ip).counts (spaced a rfl).order found (fun yes => ?_) entry
        simpa using admitted yes
  · refine (inv.window x).other (admittedTimes_other fun same => own same.1) ?_
    exact RateTable.check_other inv.distinct some_ fits fun same => own (inetNtop_injective same)

end

/-! ### The servers -/

namespace TcpServer
variable {cfg : TcpConfig} {s t : TcpServer} {ev : TcpEvent} {log : List HsAttempt}

/-- The invariant of a TCP server; the TUN server keeps no table. -/
structure RateBound (cfg : TcpConfig) (p : TcpServer × List HsAttempt) : Prop where
  inv : RateInv p.1.rate p.2
  unused : cfg.mode = .tun → p.1.rate = rateInit

theorem rate_onAccept {conn : TcpConn} (room : s.activeConns < cfg.maxConns) :
    (s.onAccept cfg conn).rate = (s.rateCheck cfg conn).2 := by
  simp only [onAccept, if_neg (Int.not_le.mpr room)]
  split <;> rfl

theorem length_onAccept {conn : TcpConn} (h : (s.onAccept cfg conn).children.length > s.children.length) :
    (s.rateCheck cfg conn).1 = true := by
  by_contra no
  rw [children_onAccept_of_not fun admits => no admits.rate] at h
  omega

theorem RateBound.accept (inv : RateBound cfg (s, log)) (conn : TcpConn)
    (spaced : Spaced log (hsAttempt cfg s (.accept conn))) :
    RateBound cfg (s.onAccept cfg conn, log ++ (hsAttempt cfg s (.accept conn)).toList) := by
  obtain ⟨a, attempt, ip, now, opens, uncounted, admitted⟩ : ∃ a, hsAttempt cfg s (.accept conn) = some a ∧
      a.ip = conn.ip ∧ a.now = conn.now ∧
      a.opens = (s.activeConns < cfg.maxConns && cfg.mode != .tun && !s.rate.hasWindow conn.ip conn.now) ∧
      a.uncounted = (s.activeConns < cfg.maxConns && cfg.mode == .tun) ∧
      a.admitted = decide ((s.onAccept cfg conn).children.length > s.children.length) := ⟨_, rfl, rfl, rfl, rfl, rfl, rfl⟩
  rw [attempt] at spaced ⊢
  show RateBound cfg (s.onAccept cfg conn, log ++ [a])
  by_cases room : s.activeConns < cfg.maxConns
  · have rate : (s.onAccept cfg conn).rate = (s.rateCheck cfg conn).2 := rate_onAccept room
    by_cases tun : cfg.mode = .tun
    · have fresh : s.rate = rateInit := inv.unused tun
      have kept : (s.onAccept cfg conn).rate = rateInit := by rw [rate, rateCheck, if_pos tun, fresh]
      have before : RateInv rateInit log := fresh ▸ inv.inv
      have after := before.unchecked (by simp [uncounted, room, tun]) spaced
      exact ⟨kept ▸ after, fun _ => kept⟩
    · rw [rateCheck, if_neg tun, ← ip, ← now] at rate
      have after := inv.inv.checked spaced (by simp [opens, room, tun, ip, now]) fun yes => by
        rw [admitted, decide_eq_true_eq] at yes
        have verdict := length_onAccept yes
        rwa [rateCheck, if_neg tun, ← ip, ← now] at verdict
      exact ⟨rate ▸ after, fun is => absurd is tun⟩
  · have same : s.onAccept cfg conn = s := if_pos (Int.not_lt.mp room)
    rw [same] at admitted ⊢
    exact ⟨inv.inv.refused (by simp [admitted]), inv.unused⟩

theorem RateBound.step (inv : RateBound cfg (s, log)) (taken : step cfg s ev = some t)
    (spaced : Spaced log (hsAttempt cfg s ev)) :
    RateBound cfg (t, log ++ (hsAttempt cfg s ev).toList) := by
  cases ev with
  | accept conn =>
    simp only [TcpServer.step] at taken
    split at taken
    · cases taken
      exact inv.accept conn spaced
    · cases taken
  | stop | sigchld =>
    simp only [TcpServer.step] at taken
    split at taken
    · cases taken
      exact ⟨(List.append_nil log).symm ▸ inv.inv, inv.unused⟩
    · cases taken
  | acceptFailed eintr =>
    simp only [TcpServer.step] at taken
    have same : t.rate = s.rate := by
      split_ifs at taken
      · cases taken
        rfl
      · cases taken
        rfl
    refine ⟨?_, fun tun => same.trans (inv.unused tun)⟩
    show RateInv t.rate (log ++ [])
    rw [same, List.append_nil]
    exact inv.inv

end TcpServer

namespace UdpServer
variable {lib : OpenSsl} {b : Backend} {cfg : UdpConfig} {s t : UdpServer} {ev : UdpEvent} {log : List HsAttempt}

theorem rate_onHandshake (tunIn : Bool) (buf : Octets) (sender : SockAddr) (now : Int64) (host : World) (s : UdpServer) :
    (s.onHandshake lib b cfg tunIn buf sender now host).rate = (handshakeRateCheck (inetNtop sender.ip) now s.rate).2 := by
  simp only [onHandshake]
  split
  · split <;> rfl
  · rfl

theorem rate_onData (buf : Octets) (sender : SockAddr) (now : Int64) (writes : List Sent) (s : UdpServer) :
    (s.onData b buf sender now writes).rate = s.rate := by
  simp only [onData]
  split
  · rfl
  · split
    · rfl
    · split <;> rfl

theorem rate_onConfirm (offer : UdpOffer) (tunIn : Bool) (d : Octets) (sender : SockAddr) (now : Int64) (s : UdpServer) :
    (s.onConfirm b cfg offer tunIn d sender now).rate = s.rate := by
  simp only [onConfirm]
  split <;> rfl

def RateBound (p : UdpServer × List HsAttempt) : Prop := RateInv p.1.rate p.2

theorem RateBound.step (bound : RateBound (s, log)) (taken : step lib b cfg s ev = some t)
    (spaced : Spaced log (s.hsAttempt ev)) : RateBound (t, log ++ (s.hsAttempt ev).toList) := by
  have inv : RateInv s.rate log := bound
  show RateInv t.rate (log ++ (s.hsAttempt ev).toList)
  -- Away from the handshake branch nothing is attempted.
  have quiet : s.hsAttempt ev = none → t.rate = s.rate → RateInv t.rate (log ++ (s.hsAttempt ev).toList) := by
    intro none_ same
    rw [none_, same, Option.toList_none, List.append_nil]
    exact inv
  have nothing : ev.datagram = none → s.hsAttempt ev = none := by
    intro no
    unfold hsAttempt
    split
    · cases no
    · rfl
  cases step_effect taken with
  | moved pc idle no eq => exact quiet (nothing no) (by rw [eq])
  | left no eq => exact quiet (nothing no) (by rw [eq, leave])
  | confirm offer tunIn d sender now place event eq =>
    subst event
    exact quiet rfl (by rw [eq, rate_onConfirm])
  | packet pkt draws place event eq =>
    subst event
    exact quiet rfl (by rw [eq, onPacket])
  | cleaned now draws place event eq =>
    subst event
    exact quiet rfl (by rw [eq, onCleanup])
  | datagram tunIn d sender now host writes place event eq =>
    subst event
    by_cases handshake : udpHsDgram ≤ (d.take udpMaxDgram).length ∧ (d.take udpMaxDgram).getD 0 0 = frameHandshake
    · have rate : t.rate = (handshakeRateCheck (inetNtop sender.ip) now s.rate).2 := by
        rw [eq]
        simp only [onDatagram, if_pos handshake, rate_onHandshake]
      obtain ⟨a, attempt, ip, time, opens, admitted⟩ : ∃ a,
          s.hsAttempt (.recv true (.dgram d sender) now host writes) = some a ∧ a.ip = sender.ip ∧ a.now = now ∧
          a.opens = (!s.rate.hasWindow sender.ip now) ∧
          a.admitted = (handshakeRateCheck (inetNtop sender.ip) now s.rate).1 :=
        ⟨_, if_pos handshake, rfl, rfl, rfl, rfl⟩
      rw [attempt] at spaced ⊢
      rw [← ip, ← time] at rate opens admitted
      rw [rate]
      exact inv.checked spaced opens fun yes => admitted ▸ yes
    · refine quiet (if_neg handshake) ?_
      rw [eq]
      simp only [onDatagram, if_neg handshake, rate_onData]

end UdpServer

/-- Along every run of a server in which each attempt that opens a window comes a minute after the last handshake
    of its address, and each one that is not counted after fewer than five in the last minute, no address gets more than five handshakes in any 60 seconds. -/
theorem handshake_rate_bounded (lib : OpenSsl) (b : Backend) (tcp : TcpConfig) (udp : UdpConfig) (x : UInt32) :
    (∀ p, Machine.Steps (Machine.logged (TcpServer.step tcp) (TcpServer.hsAttempt tcp))
        (fun p ev _ => Spaced p.2 (TcpServer.hsAttempt tcp p.1 ev)) (TcpServer.init, []) p →
      Spans.AtMost rateMaxAttempts 60 (admittedTimes x p.2)) ∧
    ∀ p, Machine.Steps (Machine.logged (UdpServer.step lib b udp) UdpServer.hsAttempt)
        (fun p ev _ => Spaced p.2 (p.1.hsAttempt ev)) (UdpServer.init, []) p →
      Spans.AtMost rateMaxAttempts 60 (admittedTimes x p.2) := by
  constructor
  · intro p run
    have inv : TcpServer.RateBound tcp p := by
      refine run.invariant ⟨.init, fun _ => rfl⟩ fun inv taken spaced => ?_
      obtain ⟨t, stepped, rfl⟩ := Option.map_eq_some_iff.mp taken
      exact inv.step stepped spaced
    exact (inv.inv.window x).spans
  · intro p run
    have inv : UdpServer.RateBound p := by
      refine run.invariant RateInv.init fun inv taken spaced => ?_
      obtain ⟨t, stepped, rfl⟩ := Option.map_eq_some_iff.mp taken
      exact inv.step stepped spaced
    exact (RateInv.window inv x).spans

/-! ### Nine handshakes in a minute -/

def visits (times : List Int64) : List TcpEvent :=
  times.map fun now => .accept ⟨blockedIp, now, true, ⟨[], [], [], [], [], [], replayInit⟩, true⟩

def visited (mode : TcpMode) : TcpConfig := ⟨mode, bob.priv, [alice.pub], 100, 0⟩

/-- The times of the handshakes when the address comes at the given times, as long as these meet a check. -/
def visitTimes (mode : TcpMode) (check : List HsAttempt → Option HsAttempt → Bool) (times : List Int64) : Option (List Int) :=
  (Machine.exec (Machine.logged (TcpServer.step (visited mode)) (TcpServer.hsAttempt (visited mode)))
    (fun p ev _ => check p.2 (TcpServer.hsAttempt (visited mode) p.1 ev)) (TcpServer.init, []) (visits times)).map
    fun p => admittedTimes blockedIp p.2

def inOrder (log : List HsAttempt) (a? : Option HsAttempt) : Bool := a?.all fun a => log.all fun b => b.now ≤ a.now

/-- The proxy's windows are fixed: five attempts end one and five start the next, a second later. The TUN server
    has no limit at all. -/
theorem handshake_rate_exceeded :
    ∃ p q : TcpServer × List HsAttempt,
      Machine.Steps (Machine.logged (TcpServer.step (visited .psk)) (TcpServer.hsAttempt (visited .psk)))
        (fun p ev _ => inOrder p.2 (TcpServer.hsAttempt (visited .psk) p.1 ev) = true) (TcpServer.init, []) p ∧
      ¬ Spans.AtMost rateMaxAttempts 60 (admittedTimes blockedIp p.2) ∧
      Machine.Steps (Machine.logged (TcpServer.step (visited .tun)) (TcpServer.hsAttempt (visited .tun)))
        (fun p ev _ => inOrder p.2 (TcpServer.hsAttempt (visited .tun) p.1 ev) = true) (TcpServer.init, []) q ∧
      ¬ Spans.AtMost rateMaxAttempts 60 (admittedTimes blockedIp q.2) := by
  have proxy : visitTimes .psk inOrder [0, 60, 60, 60, 60, 61, 61, 61, 61, 61] =
      some [0, 60, 60, 60, 60, 61, 61, 61, 61, 61] := by decide +kernel
  have tun : visitTimes .tun inOrder [0, 0, 0, 0, 0, 0] = some [0, 0, 0, 0, 0, 0] := by decide +kernel
  obtain ⟨p, run, times⟩ := Option.map_eq_some_iff.mp proxy
  obtain ⟨q, run', times'⟩ := Option.map_eq_some_iff.mp tun
  refine ⟨p, q, .of_exec _ _ (fun _ ok => ok) run, fun bound => ?_, .of_exec _ _ (fun _ ok => ok) run', fun bound => ?_⟩
  · rw [times] at bound
    exact absurd (bound 60) (by decide)
  · rw [times'] at bound
    exact absurd (bound 0) (by decide)

instance (log : List HsAttempt) (a? : Option HsAttempt) : Decidable (Spaced log a?) :=
  match a? with
  | none => isTrue fun a h => by cases h
  | some a => decidable_of_iff ((∀ b ∈ log, b.now ≤ a.now) ∧
      (a.opens = true → ∀ b ∈ log, b.ip = a.ip → b.admitted = true → b.now.toInt + 60 ≤ a.now.toInt) ∧
      (a.uncounted = true → (admittedTimes a.ip log).countP (fun t => a.now.toInt < t + 60) < rateMaxAttempts))
    ⟨fun h a' same => Option.some.inj same ▸ ⟨h.1, h.2.1, h.2.2⟩, fun h => ⟨(h a rfl).order, (h a rfl).window, (h a rfl).few⟩⟩

/-- Six attempts at once, the last of which is refused, and one in the next window; and five at once at the server that
    does not count them. -/
theorem handshake_rate_bounded_proxy :
    ∃ p q : TcpServer × List HsAttempt,
      (admittedTimes blockedIp p.2 = [0, 0, 0, 0, 0, 61] ∧ Spans.AtMost rateMaxAttempts 60 (admittedTimes blockedIp p.2)) ∧
      admittedTimes blockedIp q.2 = [0, 0, 0, 0, 0] ∧ Spans.AtMost rateMaxAttempts 60 (admittedTimes blockedIp q.2) := by
  have proxy : visitTimes .psk (fun log a? => decide (Spaced log a?)) [0, 0, 0, 0, 0, 0, 61] = some [0, 0, 0, 0, 0, 61] := by
    decide +kernel
  have tun : visitTimes .tun (fun log a? => decide (Spaced log a?)) [0, 0, 0, 0, 0] = some [0, 0, 0, 0, 0] := by decide +kernel
  obtain ⟨p, run, times⟩ := Option.map_eq_some_iff.mp proxy
  obtain ⟨q, run', times'⟩ := Option.map_eq_some_iff.mp tun
  refine ⟨p, q, ⟨times, ?_⟩, times', ?_⟩
  · exact (handshake_rate_bounded aliceBobSsl .pureC (visited .psk) ⟨bob.priv, [], 0⟩ blockedIp).1 p
      (.of_exec _ _ (fun _ ok => of_decide_eq_true ok) run)
  · exact (handshake_rate_bounded aliceBobSsl .pureC (visited .tun) ⟨bob.priv, [], 0⟩ blockedIp).1 q
      (.of_exec _ _ (fun _ ok => of_decide_eq_true ok) run')

end AegisTunnel
