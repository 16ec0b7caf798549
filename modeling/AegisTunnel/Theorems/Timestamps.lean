import AegisTunnel.Lib.SlotRing
import AegisTunnel.Theorems.UdpHandshake

/-! # Timestamps and replays

The window tests take the distance of two `int64_t` values, which fits unless the timestamp lies `2 ^ 63`
seconds or more before the clock. What `check_ts` lets pass then depends on its cache: the last 128
handshakes that passed, by their timestamp and the first eight bytes of their ephemeral key. -/

namespace AegisTunnel
open Octets

/-! ### The window -/

/-- The distance as the window tests compute it. -/
def windowGap (now ts : Int64) : Int64 := if now > ts then now - ts else ts - now

/-- The window tests with the clock at `now`: what they let pass is at most 60 seconds away, and the
    subtraction gives the distance. -/
structure WindowExact (now ts : Int64) : Prop where
  checkTs : ∀ (w : World) (epk : Word 32), w.clock.head? = some now → (checkTs ts epk w).1 = some () →
    |now.toInt - ts.toInt| ≤ 60
  udpWindow : ∀ w : World, w.clock.head? = some now → (udpWindow ts w).1 = some () → |now.toInt - ts.toInt| ≤ 60
  noOverflow : (windowGap now ts).toInt = |now.toInt - ts.toInt|

section Window
variable {now ts : Int64} {epk : Word 32} {w : World} {cl : List Int64}

theorem windowGap_toInt (hnow : 0 ≤ now) (fits : now.toInt - ts.toInt < 2 ^ 63) :
    (windowGap now ts).toInt = |now.toInt - ts.toInt| := by
  have hpos : 0 ≤ now.toInt := Int64.le_iff_toInt_le.mp hnow
  have hts := ts.toInt_lt
  unfold windowGap
  split
  next h =>
    have hlt : ts.toInt < now.toInt := Int64.lt_iff_toInt_lt.mp h
    rw [Int64.toInt_sub, Int.bmod_eq_of_le (by omega) (by omega), abs_of_nonneg (by omega)]
  next h =>
    have hle : now.toInt ≤ ts.toInt := Int64.le_iff_toInt_le.mp (Int64.not_lt.mp h)
    rw [Int64.toInt_sub, Int.bmod_eq_of_le (by omega) (by omega), abs_sub_comm, abs_of_nonneg (by omega)]

/-- Where the difference does not fit, what is computed is negative. -/
theorem windowGap_wraps (far : 2 ^ 63 ≤ now.toInt - ts.toInt) : (windowGap now ts).toInt < 0 := by
  have hnow := now.toInt_lt
  have hts := ts.le_toInt
  have hgt : now > ts := Int64.lt_iff_toInt_lt.mpr (by omega)
  have hbmod : (now.toInt - ts.toInt).bmod (2 ^ 64) = now.toInt - ts.toInt - 2 ^ 64 := by
    rw [← Int.sub_bmod_right, Int.bmod_eq_of_le (by omega) (by omega)]
    rfl
  rw [windowGap, if_pos hgt, Int64.toInt_sub, hbmod]
  omega

/-- The tests before the cache is asked. -/
def Timely (now ts : Int64) : Prop := 0 ≤ now ∧ ¬ windowGap now ts > handshakeWindow

instance : Decidable (Timely now ts) := inferInstanceAs (Decidable (_ ∧ _))

theorem checkTs_timely (hclock : w.clock = now :: cl) (timely : Timely now ts) :
    checkTs ts epk w =
      (isReplay ts epk >>= fun seen => if seen then Run.fail else pure ()) { w with clock := cl } := by
  rw [checkTs, Run.bind_some (timestampNow_some hclock), if_neg (Int64.not_lt.mpr timely.1)]
  exact congrFun (if_neg timely.2) _

theorem checkTs_untimely (hclock : w.clock = now :: cl) (untimely : ¬ Timely now ts) :
    checkTs ts epk w = (none, { w with clock := cl }) := by
  rw [checkTs, Run.bind_some (timestampNow_some hclock)]
  split
  next => rfl
  next hnow =>
    have hgap : windowGap now ts > handshakeWindow := by
      by_contra hgap
      exact untimely ⟨Int64.not_lt.mp hnow, hgap⟩
    exact congrFun (if_pos hgap) _

theorem udpWindow_eq (hclock : w.clock = now :: cl) :
    udpWindow ts w = (if Timely now ts then some () else none, { w with clock := cl }) := by
  rw [udpWindow, Run.bind_some (timestampNow_some hclock)]
  by_cases hnow : now < 0
  · have untimely : ¬ Timely now ts := fun h => absurd h.1 (Int64.not_le.mpr hnow)
    rw [if_pos hnow, if_neg untimely]
    rfl
  · rw [if_neg hnow]
    by_cases hgap : windowGap now ts > handshakeWindow
    · have untimely : ¬ Timely now ts := fun h => h.2 hgap
      rw [if_neg untimely]
      exact congrFun (if_pos hgap) _
    · have timely : Timely now ts := ⟨Int64.not_lt.mp hnow, hgap⟩
      rw [if_pos timely]
      exact congrFun (if_neg hgap) _

theorem clock_of_head? (h : w.clock.head? = some now) : ∃ cl, w.clock = now :: cl :=
  List.head?_eq_some_iff.mp h

end Window

/-- The window tests are exact for the timestamps whose distance from the clock fits into `int64_t`. -/
theorem window_exact_iff (now ts : Int64) (hnow : 0 ≤ now) : WindowExact now ts ↔ now.toInt - ts.toInt < 2 ^ 63 := by
  have hwindow : handshakeWindow.toInt = 60 := rfl
  constructor
  · intro exact
    by_contra far
    have hneg := windowGap_wraps (not_lt.mp far)
    have := exact.noOverflow ▸ hneg
    exact absurd (abs_nonneg (now.toInt - ts.toInt)) (not_le.mpr this)
  · intro fits
    have hgap := windowGap_toInt hnow fits
    have hdist : Timely now ts → |now.toInt - ts.toInt| ≤ 60 := by
      intro timely
      rw [← hgap, ← hwindow]
      exact Int64.le_iff_toInt_le.mp (Int64.not_lt.mp timely.2)
    refine ⟨fun w epk hclock hpass => ?_, fun w hclock hpass => ?_, hgap⟩
    · obtain ⟨cl, hcl⟩ := clock_of_head? hclock
      by_contra hfar
      rw [checkTs_untimely hcl fun h => hfar (hdist h)] at hpass
      cases hpass
    · obtain ⟨cl, hcl⟩ := clock_of_head? hclock
      by_contra hfar
      rw [udpWindow_eq hcl, if_neg fun h => hfar (hdist h)] at hpass
      cases hpass

theorem window_exact_minute_ago : (0 : Int64) ≤ 1000 ∧ WindowExact 1000 940 :=
  ⟨by decide, (window_exact_iff 1000 940 (by decide)).mpr (by decide)⟩

/-- A handshake message from the far past is authenticated and passes every window test. -/
theorem window_passes_far_past :
    let ts := Int64.minValue
    let host : World := ⟨[], [], [], [1000], [], [], replayInit⟩
    udpHsParse .pureC (udpHsBuild .pureC alice.pub ts (Word.zero 16)) (Word.zero 16) = some (alice.pub, ts) ∧
      (checkTs ts alice.pub host).1 = some () ∧ (udpWindow ts host).1 = some () ∧ ¬ WindowExact 1000 ts := by
  refine ⟨udpHsParse_udpHsBuild, by decide +kernel, by decide, fun exact => ?_⟩
  exact absurd exact.noOverflow (by decide)

/-! ### The replay cache -/

def ReplayCache.ring (cache : ReplayCache) : SlotRing ReplayEntry where
  slots := cache.slots.toList
  next := cache.idx
  next_lt := by
    rw [List.Vector.toList_length]
    exact cache.idx.isLt

/-- A call of `check_ts`: the clock that it reads and its arguments. -/
structure TsCall where
  now : Int64
  ts : Int64
  ephPub : Word 32
  deriving DecidableEq

namespace TsCall

/-- What the call is known by in the cache. -/
def entry (c : TsCall) : ReplayEntry := ⟨c.ts, load 8 c.ephPub.toList⟩

/-- Whether the call returns 0, and the cache that it leaves. -/
def run (c : TsCall) (cache : ReplayCache) : Bool × ReplayCache :=
  let r := checkTs c.ts c.ephPub ⟨[], [], [], [c.now], [], [], cache⟩
  (r.1.isSome, r.2.replay)

end TsCall

/-- The cache of a process after its calls of `check_ts`. -/
def cacheAfter (calls : List TsCall) : ReplayCache := calls.foldl (fun cache c => (c.run cache).2) replayInit

/-- The call returns 0 when it is made after `before`. -/
def Passes (before : List TsCall) (c : TsCall) : Prop := (c.run (cacheAfter before)).1 = true

instance (before : List TsCall) (c : TsCall) : Decidable (Passes before c) := inferInstanceAs (Decidable (_ = _))

/-- The calls of `later`, made after `before`, that return 0. -/
def passing (before : List TsCall) : List TsCall → List TsCall
  | [] => []
  | c :: later => (if Passes before c then [c] else []) ++ passing (before ++ [c]) later

section Calls
variable {before later : List TsCall} {c : TsCall} {cache : ReplayCache}

theorem isReplayIn_iff : isReplayIn cache c.ts c.ephPub = true ↔ c.entry ∈ cache.ring.view := by
  rw [SlotRing.mem_view, isReplayIn, List.any_eq_true]
  constructor
  · rintro ⟨e, he, heq⟩
    obtain ⟨hts, hprefix⟩ := Bool.and_eq_true_iff.mp heq
    have : e = c.entry := by
      cases e
      exact congrArg₂ ReplayEntry.mk (eq_of_beq hts) (eq_of_beq hprefix)
    exact this ▸ he
  · intro h
    exact ⟨_, h, by simp [TsCall.entry]⟩

theorem run_passes (timely : Timely c.now c.ts) (fresh : c.entry ∉ cache.ring.view) :
    (c.run cache).1 = true ∧ (c.run cache).2.ring = cache.ring.push c.entry := by
  have hnew : ¬ isReplayIn cache c.ts c.ephPub = true := fun h => fresh (isReplayIn_iff.mp h)
  rw [TsCall.run, checkTs_timely rfl timely]
  dsimp only
  rw [Run.bind_some (a := false) (by rw [isReplay, if_neg hnew])]
  refine ⟨rfl, ?_⟩
  simp only [ReplayCache.ring, SlotRing.push, TsCall.entry, Bool.false_eq_true, if_false, Run.pure_apply,
    List.Vector.toList_set, List.Vector.toList_length]

theorem run_fails (h : ¬ (Timely c.now c.ts ∧ c.entry ∉ cache.ring.view)) : c.run cache = (false, cache) := by
  by_cases timely : Timely c.now c.ts
  · have hseen : isReplayIn cache c.ts c.ephPub = true := by
      rw [isReplayIn_iff]
      by_contra fresh
      exact h ⟨timely, fresh⟩
    rw [TsCall.run, checkTs_timely rfl timely]
    dsimp only
    rw [Run.bind_some (a := true) (by rw [isReplay, if_pos hseen])]
    rfl
  · rw [TsCall.run, checkTs_untimely rfl timely]
    rfl

theorem run_iff : (c.run cache).1 = true ↔ Timely c.now c.ts ∧ c.entry ∉ cache.ring.view := by
  constructor
  · intro h
    by_contra hfail
    rw [run_fails hfail] at h
    cases h
  · rintro ⟨timely, fresh⟩
    exact (run_passes timely fresh).1

theorem passes_iff_view : Passes before c ↔ Timely c.now c.ts ∧ c.entry ∉ (cacheAfter before).ring.view := run_iff

theorem cacheAfter_concat : cacheAfter (before ++ [c]) = (c.run (cacheAfter before)).2 := by
  rw [cacheAfter, List.foldl_append]
  rfl

theorem ring_cacheAfter_concat :
    (cacheAfter (before ++ [c])).ring =
      ((if Passes before c then [c] else []).map TsCall.entry).foldl SlotRing.push (cacheAfter before).ring := by
  rw [cacheAfter_concat]
  split
  next h =>
    obtain ⟨timely, fresh⟩ := passes_iff_view.mp h
    exact (run_passes timely fresh).2
  next h =>
    rw [run_fails fun ok => h (passes_iff_view.mpr ok)]
    rfl

theorem passing_append (before first second : List TsCall) :
    passing before (first ++ second) = passing before first ++ passing (before ++ first) second := by
  induction first generalizing before with
  | nil => rw [List.nil_append, List.append_nil]; rfl
  | cons c first ih => rw [List.cons_append, passing, passing, ih, List.append_assoc, List.append_assoc, List.singleton_append]

/-- The cache holds what passed, in order. -/
theorem ring_cacheAfter_append :
    (cacheAfter (before ++ later)).ring =
      ((passing before later).map TsCall.entry).foldl SlotRing.push (cacheAfter before).ring := by
  induction later generalizing before with
  | nil =>
    rw [List.append_nil]
    rfl
  | cons c later ih =>
    rw [List.append_cons, ih, ring_cacheAfter_concat, passing, List.map_append, List.foldl_append]

theorem view_cacheAfter_append :
    (cacheAfter (before ++ later)).ring.view =
      ((cacheAfter before).ring.view ++ (passing before later).map TsCall.entry).drop (passing before later).length := by
  rw [ring_cacheAfter_append, SlotRing.view_foldl_push, List.length_map]

theorem length_view_cacheAfter : (cacheAfter before).ring.view.length = replaySlots := by
  rw [SlotRing.length_view]
  exact List.Vector.toList_length _

/-- A call that passed is found again where the calls that pass are listed. -/
theorem passing_split {l r : List TsCall} (h : passing before later = l ++ c :: r) :
    ∃ front back, later = front ++ c :: back ∧ Passes (before ++ front) c ∧ passing (before ++ front ++ [c]) back = r := by
  induction later generalizing before l with
  | nil =>
    rw [passing] at h
    exact absurd h (by simp)
  | cons d later ih =>
    rw [passing] at h
    split at h
    next hd =>
      rw [List.singleton_append] at h
      cases l with
      | nil =>
        obtain ⟨rfl, rfl⟩ := List.cons.inj h
        exact ⟨[], later, rfl, by rwa [List.append_nil], by rw [List.append_nil]⟩
      | cons d' l =>
        obtain ⟨front, back, rfl, hpass, hrest⟩ := ih (List.cons.inj h).2
        exact ⟨d :: front, back, rfl, by rwa [List.append_cons], by rwa [List.append_cons before]⟩
    next =>
      rw [List.nil_append] at h
      obtain ⟨front, back, rfl, hpass, hrest⟩ := ih h
      exact ⟨d :: front, back, rfl, by rwa [List.append_cons], by rwa [List.append_cons before]⟩

end Calls

def zeroEntry : ReplayEntry := ⟨0, Word.zero 8⟩

/-- The entries of the cache after the calls: the last 128, the zeros of its start before those that passed. -/
def recentEntries (calls : List TsCall) : List ReplayEntry :=
  (List.replicate replaySlots zeroEntry ++ (passing [] calls).map TsCall.entry).drop (passing [] calls).length

/-- The calls that the slots have records of: the last 128 that passed. -/
def recorded (calls : List TsCall) : List TsCall := (passing [] calls).drop ((passing [] calls).length - replaySlots)

section Recent
variable {before mid : List TsCall} {a c : TsCall}

theorem view_cacheAfter : (cacheAfter before).ring.view = recentEntries before := by
  have hstart : (cacheAfter []).ring.view = List.replicate replaySlots zeroEntry :=
    List.rotate_zero (List.replicate replaySlots zeroEntry)
  have h : (cacheAfter ([] ++ before)).ring.view = _ := view_cacheAfter_append
  rw [hstart] at h
  exact h

theorem passes_iff_recent : Passes before c ↔ Timely c.now c.ts ∧ c.entry ∉ recentEntries before := by
  rw [passes_iff_view, view_cacheAfter]

/-- Once it has passed, a call stays in the cache until 128 others have passed. -/
theorem mem_recent_of_passes (pass : Passes before a) (few : (passing (before ++ [a]) mid).length < replaySlots) :
    a.entry ∈ recentEntries (before ++ a :: mid) := by
  have hview : (cacheAfter (before ++ [a])).ring.view = (cacheAfter before).ring.view.tail ++ [a.entry] := by
    rw [ring_cacheAfter_concat, if_pos pass]
    exact SlotRing.view_push ..
  have hlen : (cacheAfter before).ring.view.tail.length = replaySlots - 1 := by
    rw [List.length_tail, length_view_cacheAfter]
  rw [← view_cacheAfter, List.append_cons, view_cacheAfter_append, hview, List.append_assoc,
    List.drop_append_of_le_length (by omega)]
  exact List.mem_append_right _ (List.mem_append_left _ (List.mem_singleton_self _))

theorem recentEntries_eq (calls : List TsCall) :
    recentEntries calls =
      (List.replicate replaySlots zeroEntry).drop (passing [] calls).length ++ (recorded calls).map TsCall.entry := by
  rw [recentEntries, List.drop_append, List.length_replicate, recorded, List.map_drop]

theorem entry_mem_recent (h : a ∈ recorded before) : a.entry ∈ recentEntries before := by
  rw [recentEntries_eq]
  exact List.mem_append_right _ (List.mem_map_of_mem h)

/-- A call that is recorded passed, and fewer than 128 passed after it. -/
theorem exists_of_mem_recorded (h : a ∈ recorded before) :
    ∃ front back, before = front ++ a :: back ∧ Passes front a ∧ (passing (front ++ [a]) back).length < replaySlots := by
  obtain ⟨l, r, split⟩ := List.append_of_mem h
  have all : passing [] before = ((passing [] before).take ((passing [] before).length - replaySlots) ++ l) ++ a :: r := by
    rw [List.append_assoc, ← split, recorded, List.take_append_drop]
  obtain ⟨front, back, hsplit, hpass, hrest⟩ := passing_split all
  refine ⟨front, back, hsplit, hpass, ?_⟩
  have hlen := congrArg List.length split
  rw [recorded, List.length_drop, List.length_append, List.length_cons] at hlen
  rw [List.nil_append] at hrest
  rw [hrest]
  omega

theorem mem_recorded (pass : Passes before a) (few : (passing (before ++ [a]) mid).length < replaySlots) :
    a ∈ recorded (before ++ a :: mid) := by
  have all : passing [] (before ++ a :: mid) = passing [] before ++ a :: passing (before ++ [a]) mid := by
    rw [passing_append, List.nil_append, passing, if_pos pass]
    rfl
  rw [recorded, all, List.length_append, List.length_cons, List.drop_append_of_le_length (by omega)]
  exact List.mem_append_right _ List.mem_cons_self

/-- An entry of the cache is a zero of its start or was left by one of the last 128 calls that passed. -/
theorem recorded_of_mem_recent (h : c.entry ∈ recentEntries before) :
    (c.entry = zeroEntry ∧ (passing [] before).length < replaySlots) ∨ ∃ a ∈ recorded before, a.entry = c.entry := by
  rw [recentEntries_eq, List.drop_replicate] at h
  rcases List.mem_append.mp h with zero | there
  · obtain ⟨some_, zero⟩ := List.mem_replicate.mp zero
    exact .inl ⟨zero, by omega⟩
  · exact .inr (List.mem_map.mp there)

/-- Calls in the window all pass while none has the entry of another. -/
theorem passing_of_nodup {later : List TsCall} (timely : ∀ c ∈ later, Timely c.now c.ts)
    (nonzero : ∀ c ∈ later, c.entry ≠ zeroEntry) (distinct : ((before ++ later).map TsCall.entry).Nodup) :
    passing before later = later := by
  induction later generalizing before with
  | nil => rfl
  | cons c later ih =>
    have hpass : Passes before c := by
      refine passes_iff_recent.mpr ⟨timely c (List.mem_cons_self ..), fun hmem => ?_⟩
      rcases recorded_of_mem_recent hmem with ⟨hzero, -⟩ | ⟨a, there, hentry⟩
      · exact nonzero c (List.mem_cons_self ..) hzero
      · obtain ⟨front, back, rfl, -⟩ := exists_of_mem_recorded there
        rw [List.map_append, List.map_cons, ← hentry] at distinct
        exact List.disjoint_of_nodup_append distinct (List.mem_map_of_mem (by simp)) (List.mem_cons_self ..)
    rw [passing, if_pos hpass, ih (fun d hd => timely d (List.mem_cons_of_mem _ hd))
      (fun d hd => nonzero d (List.mem_cons_of_mem _ hd)) (by rwa [List.append_assoc])]
    rfl

end Recent

/-- A call in the window passes unless its timestamp and the first eight bytes of its key are those of a recent
    entry. So a repeated call passes only after 128 others, and a call is held for a repetition only of one
    that has the same timestamp and the same eight bytes. -/
theorem check_ts_replays :
    (∀ before c, Passes before c ↔ Timely c.now c.ts ∧ c.entry ∉ recentEntries before) ∧
    (∀ before a mid c, a.ts = c.ts → a.ephPub = c.ephPub → Passes before a → Passes (before ++ a :: mid) c →
      replaySlots ≤ (passing (before ++ [a]) mid).length) ∧
    (∀ before c, Timely c.now c.ts → ¬ Passes before c →
      (c.entry = zeroEntry ∧ (passing [] before).length < replaySlots) ∨
      ∃ front a back, before = front ++ a :: back ∧ Passes front a ∧ a.entry = c.entry ∧
        (passing (front ++ [a]) back).length < replaySlots) := by
  refine ⟨fun _ _ => passes_iff_recent, fun before a mid c hts hkey ha hc => ?_, fun before c timely hfail => ?_⟩
  · by_contra few
    have hentry : a.entry = c.entry := by rw [TsCall.entry, TsCall.entry, hts, hkey]
    exact (passes_iff_recent.mp hc).2 (hentry ▸ mem_recent_of_passes ha (Nat.lt_of_not_le few))
  · have seen : c.entry ∈ recentEntries before := by
      by_contra fresh
      exact hfail (passes_iff_recent.mpr ⟨timely, fresh⟩)
    refine (recorded_of_mem_recent seen).imp_right fun ⟨a, there, hentry⟩ => ?_
    obtain ⟨front, back, rfl, hpass, few⟩ := exists_of_mem_recorded there
    exact ⟨front, a, back, rfl, hpass, hentry, few⟩

/-! ### When the cache is exact -/

/-- The cache with another record in a slot. -/
def ReplayCache.replace (cache : ReplayCache) (i : Fin replaySlots) (e : ReplayEntry) : ReplayCache :=
  { cache with slots := cache.slots.set i e }

/-- `c` is rejected because of `a`, with the calls of `mid` between them: the record of `a` still stands in its slot,
    and `c`, which is rejected, would pass with another one there. -/
structure RejectedFor (before : List TsCall) (a : TsCall) (mid : List TsCall) (c : TsCall) : Prop where
  recorded : Passes before a
  there : (passing (before ++ [a]) mid).length < replaySlots
  rejected : ¬ Passes (before ++ a :: mid) c
  otherwise : ∃ e, (c.run ((cacheAfter (before ++ a :: mid)).replace (cacheAfter before).idx e)).1 = true

/-- No call passes twice, and none is rejected because of a call with another key. -/
structure ReplaysExact (calls : List TsCall) : Prop where
  once : ∀ before a mid c later, calls = before ++ a :: mid ++ c :: later → a.ts = c.ts → a.ephPub = c.ephPub →
    ¬ (Passes before a ∧ Passes (before ++ a :: mid) c)
  apart : ∀ before a mid c later, calls = before ++ a :: mid ++ c :: later → a.ephPub ≠ c.ephPub →
    ¬ RejectedFor before a mid c

/-- What the slots have to hold for a call: its own record, if it has passed before, and none of another key with
    its timestamp and its first eight bytes. -/
structure CacheServes (before : List TsCall) (c : TsCall) : Prop where
  kept : ∀ a ∈ passing [] before, a.ts = c.ts → a.ephPub = c.ephPub →
    ∃ d ∈ recorded before, d.ts = c.ts ∧ d.ephPub = c.ephPub
  told : ∀ a ∈ recorded before, a.ts = c.ts → load 8 a.ephPub.toList = load 8 c.ephPub.toList → a.ephPub = c.ephPub

section Exact
variable {before mid : List TsCall} {a c : TsCall}

theorem entry_eq_iff : a.entry = c.entry ↔ a.ts = c.ts ∧ load 8 a.ephPub.toList = load 8 c.ephPub.toList :=
  ReplayEntry.mk.injEq .. ▸ Iff.rfl

/-- While its record stands, no call with the same one passes. -/
theorem entry_not_mem_passing (pass : Passes before a) (few : (passing (before ++ [a]) mid).length ≤ replaySlots) :
    a.entry ∉ (passing (before ++ [a]) mid).map TsCall.entry := by
  intro again
  obtain ⟨b, hb, hentry⟩ := List.mem_map.mp again
  obtain ⟨l, r, split⟩ := List.append_of_mem hb
  obtain ⟨front, back, rfl, hpass, hrest⟩ := passing_split split
  rw [passing_append, List.length_append, passing, if_pos hpass, List.length_append, List.length_singleton] at few
  have there : a.entry ∈ recentEntries (before ++ a :: front) := mem_recent_of_passes pass (by omega)
  rw [List.append_cons] at there
  exact (passes_iff_recent.mp hpass).2 (hentry ▸ there)

/-- Only the slot that a call took holds its record. -/
theorem sole_record (pass : Passes before a) (few : (passing (before ++ [a]) mid).length < replaySlots) :
    (cacheAfter (before ++ a :: mid)).ring.Sole (cacheAfter before).idx a.entry := by
  have size : (cacheAfter before).ring.slots.length = replaySlots := List.Vector.toList_length _
  have fresh : a.entry ∉ (cacheAfter before).ring.slots := fun h =>
    (passes_iff_view.mp pass).2 (SlotRing.mem_view.mpr h)
  have sole := SlotRing.sole_foldl_push fresh (entry_not_mem_passing pass few.le) (by rwa [List.length_map, size])
  rw [List.append_cons, ring_cacheAfter_append, ring_cacheAfter_concat, if_pos pass]
  exact sole

theorem run_replace_iff {cache : ReplayCache} {i : Fin replaySlots} {e : ReplayEntry} :
    (c.run (cache.replace i e)).1 = true ↔ Timely c.now c.ts ∧ c.entry ∉ cache.ring.slots.set i e := by
  have slots : (cache.replace i e).ring.slots = cache.ring.slots.set i e := List.Vector.toList_set ..
  rw [run_iff, SlotRing.mem_view, slots]

/-- A call is rejected because of another one just if its record, among the last 128, is the same. -/
theorem rejectedFor_iff (pass : Passes before a) (few : (passing (before ++ [a]) mid).length < replaySlots) :
    RejectedFor before a mid c ↔ Timely c.now c.ts ∧ a.entry = c.entry := by
  have sole := sole_record pass few
  constructor
  · rintro ⟨-, -, rejected, e, otherwise⟩
    obtain ⟨timely, gone⟩ := run_replace_iff.mp otherwise
    refine ⟨timely, ?_⟩
    have seen : c.entry ∈ (cacheAfter (before ++ a :: mid)).ring.slots := by
      by_contra fresh
      exact rejected (passes_iff_view.mpr ⟨timely, fun h => fresh (SlotRing.mem_view.mp h)⟩)
    obtain ⟨j, hj⟩ := List.mem_iff_getElem?.mp seen
    -- the slot is that of `a`: another one would still hold the record
    have place : j = (cacheAfter before).idx := by
      by_contra other
      refine gone (List.mem_iff_getElem?.mpr ⟨j, ?_⟩)
      rwa [List.getElem?_set_ne (Ne.symm other)]
    exact Option.some.inj (((sole j).mpr place).symm.trans hj)
  · rintro ⟨timely, hentry⟩
    have there := mem_recent_of_passes pass few
    refine ⟨pass, few, fun h => (passes_iff_recent.mp h).2 (hentry ▸ there), ⟨c.ts + 1, load 8 c.ephPub.toList⟩, ?_⟩
    refine run_replace_iff.mpr ⟨timely, fun still => ?_⟩
    obtain ⟨j, hj⟩ := List.mem_iff_getElem?.mp still
    rw [List.getElem?_set] at hj
    split at hj
    next =>
      split at hj
      next => exact absurd (congrArg ReplayEntry.ts (Option.some.inj hj)) (by simp [TsCall.entry])
      next => cases hj
    next other => exact other ((sole j).mp (hentry ▸ hj)).symm

end Exact

/-- The cache is exact along the calls of a process just if at each of them that is in the window it has the
    records that it needs: fewer than 128 calls have passed since the same one, and no other one among the last
    128 has its timestamp and the first eight bytes of its key. -/
theorem replay_cache_exact_iff (calls : List TsCall) :
    ReplaysExact calls ↔
      ∀ before c later, calls = before ++ c :: later → Timely c.now c.ts → CacheServes before c := by
  constructor
  · intro exact before c later hcalls timely
    have told : ∀ a ∈ recorded before, a.entry = c.entry → a.ephPub = c.ephPub := by
      intro a there hentry
      obtain ⟨front, back, rfl, pass, few⟩ := exists_of_mem_recorded there
      by_contra other
      exact exact.apart front a back c later hcalls other ((rejectedFor_iff pass few).mpr ⟨timely, hentry⟩)
    refine ⟨fun a passed hts hkey => ?_, fun a there hts hprefix => told a there (entry_eq_iff.mpr ⟨hts, hprefix⟩)⟩
    obtain ⟨l, r, split⟩ := List.append_of_mem passed
    obtain ⟨front, back, rfl, pass, -⟩ := passing_split split
    have rejected : ¬ Passes (front ++ a :: back) c := fun h =>
      exact.once front a back c later hcalls hts hkey ⟨pass, h⟩
    have seen : c.entry ∈ recentEntries (front ++ a :: back) := by
      by_contra fresh
      exact rejected (passes_iff_recent.mpr ⟨timely, fresh⟩)
    rcases recorded_of_mem_recent seen with ⟨-, few⟩ | ⟨d, there, hentry⟩
    · refine ⟨a, ?_, hts, hkey⟩
      rwa [recorded, Nat.sub_eq_zero_of_le few.le, List.drop_zero]
    · exact ⟨d, there, (entry_eq_iff.mp hentry).1, told d there hentry⟩
  · intro serves
    constructor
    · rintro before a mid c later hcalls hts hkey ⟨pass, again⟩
      obtain ⟨timely, fresh⟩ := passes_iff_recent.mp again
      have passed : a ∈ passing [] (before ++ a :: mid) := by
        rw [passing_append, List.nil_append, passing, if_pos pass]
        exact List.mem_append_right _ List.mem_cons_self
      obtain ⟨d, there, dts, dkey⟩ := (serves _ c later hcalls timely).kept a passed hts hkey
      exact fresh (entry_eq_iff.mpr ⟨dts, by rw [dkey]⟩ ▸ entry_mem_recent there)
    · intro before a mid c later hcalls other rejected
      obtain ⟨timely, hentry⟩ := (rejectedFor_iff rejected.recorded rejected.there).mp rejected
      obtain ⟨hts, hprefix⟩ := entry_eq_iff.mp hentry
      have there := mem_recorded rejected.recorded rejected.there
      exact other ((serves _ c later hcalls timely).told a there hts hprefix)

/-- Handshakes of the second 1000, each with a key of its own. -/
def handshakeAt1000 (n : Nat) : TsCall := ⟨1000, 1000, word32 ((n + 1) * 2 ^ 192)⟩

theorem entry_handshakeAt1000 {n m : Nat} (hn : n < 129) (hm : m < 129)
    (h : (handshakeAt1000 n).entry = (handshakeAt1000 m).entry) : n = m := by
  have hbyte : ∀ k, (handshakeAt1000 k).entry.ephPrefix.toList.getD 7 0 = UInt8.ofNat (k + 1) := by
    intro k
    show UInt8.ofNat (((k + 1) * 2 ^ 192) >>> 192) = UInt8.ofNat (k + 1)
    rw [Nat.shiftRight_eq_div_pow, Nat.mul_div_cancel _ (by decide)]
  have heq : UInt8.ofNat (n + 1) = UInt8.ofNat (m + 1) := by rw [← hbyte n, ← hbyte m, h]
  have hnat := congrArg UInt8.toNat heq
  rw [UInt8.toNat_ofNat', UInt8.toNat_ofNat'] at hnat
  omega

theorem passing_handshakesAt1000 :
    passing [] ((List.range 129).map handshakeAt1000) = (List.range 129).map handshakeAt1000 := by
  refine passing_of_nodup (fun c hc => ?_) (fun c hc => ?_) ?_
  · obtain ⟨n, -, rfl⟩ := List.mem_map.mp hc
    exact show Timely 1000 1000 by decide
  · obtain ⟨n, -, rfl⟩ := List.mem_map.mp hc
    exact fun h => absurd (congrArg ReplayEntry.ts h) (show (1000 : Int64) ≠ 0 by decide)
  · rw [List.nil_append, List.map_map]
    refine List.Nodup.map_on (fun n hn m hm h => ?_) List.nodup_range
    exact entry_handshakeAt1000 (List.mem_range.mp hn) (List.mem_range.mp hm) h

theorem handshakesAt1000_eq :
    (List.range 129).map handshakeAt1000 = handshakeAt1000 0 :: (List.range' 1 128).map handshakeAt1000 := by
  rw [List.range_eq_range', List.range'_succ, List.map_cons]

theorem recentEntries_handshakesAt1000 :
    recentEntries ((List.range 129).map handshakeAt1000) =
      (List.range' 1 128).map fun n => (handshakeAt1000 n).entry := by
  rw [recentEntries, passing_handshakesAt1000, handshakesAt1000_eq, List.map_cons, List.append_cons,
    List.drop_left' (by simp [replaySlots]), List.map_map]
  rfl

/-- With 128 others between them, a handshake passes twice; and it is held for a repetition of another one whose
    key begins with the same eight bytes. -/
theorem replay_cache_limits :
    (∃ a mid, ((a :: mid ++ [a]).map TsCall.now).Pairwise (· ≤ ·) ∧ Passes [] a ∧ Passes (a :: mid) a ∧
      ¬ ReplaysExact (a :: mid ++ [a])) ∧
    (∃ a c : TsCall, a.now ≤ c.now ∧ a.ephPub ≠ c.ephPub ∧ Passes [] a ∧ Passes [] c ∧ ¬ Passes [a] c ∧
      ¬ ReplaysExact [a, c]) := by
  constructor
  · have first : Passes [] (handshakeAt1000 0) := by decide +kernel
    have again : Passes (handshakeAt1000 0 :: (List.range' 1 128).map handshakeAt1000) (handshakeAt1000 0) := by
      rw [← handshakesAt1000_eq, passes_iff_recent, recentEntries_handshakesAt1000]
      refine ⟨show Timely 1000 1000 by decide, fun hmem => ?_⟩
      obtain ⟨n, hn, hentry⟩ := List.mem_map.mp hmem
      have hrange := List.mem_range'_1.mp hn
      have := entry_handshakeAt1000 (by omega) (by decide) hentry
      omega
    refine ⟨handshakeAt1000 0, (List.range' 1 128).map handshakeAt1000, ?_, first, again, fun exact => ?_⟩
    · have hnow : ∀ t ∈ (handshakeAt1000 0 :: (List.range' 1 128).map handshakeAt1000 ++
          [handshakeAt1000 0]).map TsCall.now, t = 1000 := by
        intro t ht
        obtain ⟨c, hc, rfl⟩ := List.mem_map.mp ht
        have : ∃ n, c = handshakeAt1000 n := by
          rcases List.mem_append.mp hc with hc | hc
          · rw [← handshakesAt1000_eq] at hc
            obtain ⟨n, -, rfl⟩ := List.mem_map.mp hc
            exact ⟨n, rfl⟩
          · exact ⟨0, List.mem_singleton.mp hc⟩
        obtain ⟨n, rfl⟩ := this
        rfl
      rw [List.eq_replicate_of_mem hnow]
      exact List.pairwise_replicate.mpr (.inr (Int64.le_refl 1000))
    · exact exact.once [] (handshakeAt1000 0) _ (handshakeAt1000 0) [] rfl rfl rfl ⟨first, again⟩
  · refine ⟨⟨1000, 1000, word32 1⟩, ⟨1000, 1000, word32 2⟩, ?_⟩
    have facts : (1000 : Int64) ≤ 1000 ∧ word32 1 ≠ word32 2 ∧ Passes [] ⟨1000, 1000, word32 1⟩ ∧
        Passes [] ⟨1000, 1000, word32 2⟩ ∧ ¬ Passes [⟨1000, 1000, word32 1⟩] ⟨1000, 1000, word32 2⟩ := by decide +kernel
    obtain ⟨clock, other, first, second, held⟩ := facts
    refine ⟨clock, other, first, second, held, fun exact => ?_⟩
    refine exact.apart [] ⟨1000, 1000, word32 1⟩ [] ⟨1000, 1000, word32 2⟩ [] rfl other ?_
    exact (rejectedFor_iff first (by decide)).mpr (by decide +kernel)

end AegisTunnel
