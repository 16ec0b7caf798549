import AegisTunnel.Lib.Threads
import AegisTunnel.Theorems.ThreadPool

/-! # The condition variable of the thread pool

A worker waits only when the queue is empty and the pool is open, and each job that comes in while a worker waits
wakes one of them. So no wake-up is lost: while a worker waits, as many workers are on their way to the queue as
there are jobs in it. After the broadcast of the shutdown nobody waits any more, and the workers come to their
end with all jobs called. -/

namespace AegisTunnel
open Linked

variable {J : Type} {n : Nat}

/-- One for a worker that looks at the queue next. -/
def Worker.attends : Worker → Nat
  | .ready => 1
  | _ => 0

/-- The steps that a worker still makes until it finds the queue empty. -/
def Worker.weight : Worker → Nat
  | .running _ => 3
  | .done _ => 2
  | .ready => 1
  | .waiting | .returned => 0

namespace Pool
variable {s t : Pool J n} {l l' : List Nat} {ev : PoolEvent J n × Option (Fin n)}

def readyCount (workers : Fin n → Worker) : Nat := ∑ i, (workers i).attends

/-- The steps that the workers still make when nothing else happens: for each job in the queue one that takes it, one
that calls it and one that frees its work item. -/
def work (s : Pool J n) : Nat := 3 * (s.submitted.length - s.dequeued.length) + ∑ i, (s.workers i).weight

section Workers
variable {workers workers' : Fin n → Worker} {i j : Fin n} {x : Worker}

theorem readyCount_update (workers : Fin n → Worker) (i : Fin n) (x : Worker) :
    readyCount (Function.update workers i x) + (workers i).attends = x.attends + readyCount workers :=
  Threads.sum_update Worker.attends workers i x

theorem waiting_update (hx : x ≠ .waiting) (hj : Function.update workers i x j = .waiting) : workers j = .waiting := by
  by_cases same : j = i
  · subst same
    rw [Function.update_self] at hj
    exact absurd hj hx
  · rwa [Function.update_of_ne same] at hj

/-- Some workers that waited are ready, the others are where they were. -/
def Roused (workers workers' : Fin n → Worker) : Prop :=
  ∀ i, workers' i = workers i ∨ workers i = .waiting ∧ workers' i = .ready

theorem Roused.item (roused : Roused workers workers') (i : Fin n) : (workers' i).item = (workers i).item := by
  rcases roused i with same | ⟨waited, ready⟩
  · rw [same]
  · rw [waited, ready]
    rfl

theorem Roused.toCall (roused : Roused workers workers') (h : Heap Nat J) (i : Fin n) :
    toCall h (workers' i) = toCall h (workers i) := by
  rcases roused i with same | ⟨waited, ready⟩
  · rw [same]
  · rw [waited, ready]
    rfl

theorem Roused.returned (roused : Roused workers workers') (left : workers' i = .returned) : workers i = .returned := by
  rcases roused i with same | ⟨-, ready⟩
  · rw [← same, left]
  · cases left.symm.trans ready

theorem Owned.rouse {tp : PoolMem J} {prepared : List Nat} (own : Owned tp workers prepared l)
    (roused : Roused workers workers') : Owned tp workers' prepared l where
  queue := own.queue
  alone := own.alone
  once := own.once
  item i w h := own.item i w (roused.item i ▸ h)
  apart i j w hi hj := own.apart i j w (roused.item i ▸ hi) (roused.item j ▸ hj)

theorem History.rouse (hist : History s l) (roused : Roused s.workers workers') :
    History { s with workers := workers' } l where
  order := hist.order
  calls := by
    show (s.dequeued : Multiset J) = s.executed + ∑ i, Pool.toCall s.mem.heap (workers' i)
    rw [Finset.sum_congr rfl fun i _ => roused.toCall s.mem.heap i, hist.calls]
  early := hist.early
  closed := hist.closed
  drained i hi := hist.drained i (roused.returned hi)

end Workers

/-! ### What an event wakes up -/

theorem signal_roused {woken : Option (Fin n)} (can : s.signals woken = true) (same : t.workers = s.workers) :
    ∃ workers', t.signal woken = { t with workers := workers' } ∧ Roused t.workers workers' := by
  cases woken with
  | none => exact ⟨t.workers, rfl, fun i => Or.inl rfl⟩
  | some i =>
    have waiting : t.workers i = .waiting := same ▸ beq_iff_eq.mp can
    refine ⟨_, rfl, fun j => ?_⟩
    by_cases here : j = i
    · subst here
      exact Or.inr ⟨waiting, Function.update_self ..⟩
    · exact Or.inl (Function.update_of_ne here ..)

theorem broadcast_roused (t : Pool J n) :
    ∃ workers', t.broadcast = { t with workers := workers' } ∧ Roused t.workers workers' := by
  refine ⟨_, rfl, fun i => ?_⟩
  by_cases waiting : t.workers i = .waiting
  · exact Or.inr ⟨waiting, if_pos waiting⟩
  · exact Or.inl (if_neg waiting)

theorem Effect.roused (effect : Effect s l ev.1 t l') (can : s.condEnabled ev = true) :
    ∃ workers', t.notify ev = { t with workers := workers' } ∧ Roused t.workers workers' := by
  obtain ⟨-, can⟩ := Bool.and_eq_true_iff.mp can
  obtain ⟨e, woken⟩ := ev
  cases effect with
  | submit mine value queue same values others => exact signal_roused can rfl
  | shutdown => exact broadcast_roused _
  | _ => exact ⟨_, rfl, fun i => Or.inl rfl⟩

/-! ### No wake-up is lost -/

/-- Who waits is not needed: the pool is open, and the jobs of the queue have workers on their way. -/
structure Attended (s : Pool J n) (l : List Nat) : Prop where
  opened : ∀ i, s.workers i = .waiting → s.mem.shutdown = false
  enough : ∀ i, s.workers i = .waiting → l.length ≤ readyCount s.workers

/-- A worker waits only for an empty queue of an open pool. -/
theorem Owned.wait_idle (own : Owned s.mem s.workers s.prepared l) {i : Fin n} (taken : s.act (.turn i) = some t)
    (waits : t.workers i = .waiting) : l = [] ∧ s.mem.shutdown = false := by
  rcases own.queue.turn with ⟨empty, hturn⟩ | ⟨w, rest, tp, first, hturn, -⟩
  · refine ⟨empty, ?_⟩
    cases closed : s.mem.shutdown with
    | false => rfl
    | true =>
      simp only [act, hturn, closed, if_true, Option.map_some, Option.some.injEq] at taken
      subst taken
      cases (Function.update_self ..).symm.trans waits
  · simp only [act, hturn, Option.map_some, Option.some.injEq] at taken
    subst taken
    cases (Function.update_self ..).symm.trans waits

/-- A worker leaves its place for one where it does not wait, and the queue gets shorter if it was on its way
there. -/
theorem Attended.setWorker (att : Attended s l) {i : Fin n} {x : Worker} (hx : x ≠ .waiting)
    (fewer : l'.length + (s.workers i).attends ≤ l.length + x.attends) (same : t.mem.shutdown = s.mem.shutdown)
    (moved : t.workers = Function.update s.workers i x) : Attended t l' where
  opened j hj := by
    rw [moved] at hj
    rw [same, att.opened j (waiting_update hx hj)]
  enough j hj := by
    rw [moved] at hj ⊢
    have before := att.enough j (waiting_update hx hj)
    have count := readyCount_update s.workers i x
    omega

theorem Attended.submit {woken : Option (Fin n)} (att : Attended s l) (can : s.signals woken = true) (w : Nat)
    (same : t.mem.shutdown = s.mem.shutdown) (workers : t.workers = s.workers) :
    Attended (t.signal woken) (l ++ [w]) := by
  cases woken with
  | none =>
    -- Nobody waits.
    have none_waits : ∀ i, s.workers i ≠ .waiting := of_decide_eq_true can
    exact ⟨fun i hi => absurd (workers ▸ hi) (none_waits i), fun i hi => absurd (workers ▸ hi) (none_waits i)⟩
  | some i =>
    have waiting : s.workers i = .waiting := beq_iff_eq.mp can
    refine att.setWorker (i := i) (x := .ready) (fun h => by cases h) ?_ same ?_
    · rw [waiting, List.length_append]
      exact Nat.le_refl _
    · rw [← workers]
      rfl

theorem Attended.step (att : Attended s l) (own : Owned s.mem s.workers s.prepared l) (can : s.condEnabled ev = true)
    (taken : s.act ev.1 = some t) (effect : Effect s l ev.1 t l') : Attended (t.notify ev) l' := by
  obtain ⟨-, can⟩ := Bool.and_eq_true_iff.mp can
  obtain ⟨e, woken⟩ := ev
  cases effect with
  | malloc job fresh => exact ⟨att.opened, att.enough⟩
  | @submit w job tp mine value queue same values others =>
    exact att.submit can w same rfl
  | wait ready =>
    obtain ⟨empty, opened⟩ := own.wait_idle taken (Function.update_self ..)
    subst empty
    exact ⟨fun _ _ => opened, fun _ _ => Nat.zero_le _⟩
  | @leave i ready empty closed =>
    subst empty
    refine ⟨fun j hj => ?_, fun _ _ => Nat.zero_le _⟩
    exact att.opened j (waiting_update (fun h => by cases h) hj)
  | @take i w rest job tp ready first value queue heap same =>
    refine att.setWorker (i := i) (x := .running w) (fun h => by cases h) ?_ same rfl
    rw [ready, first]
    exact Nat.le_refl _
  | @wake i waiting =>
    refine att.setWorker (i := i) (x := .ready) (fun h => by cases h) ?_ rfl rfl
    rw [waiting]
    exact Nat.le_succ _
  | @execute i w job running value =>
    refine att.setWorker (i := i) (x := .done w) (fun h => by cases h) ?_ rfl rfl
    rw [running]
    exact Nat.le_refl _
  | @free i w done =>
    refine att.setWorker (i := i) (x := .ready) (fun h => by cases h) ?_ rfl rfl
    rw [done]
    exact Nat.le_succ _
  | shutdown =>
    -- The broadcast leaves nobody waiting.
    have none_waits : ∀ i, (broadcast
        { s with mem := { s.mem with shutdown := true }, early := s.early.or (some s.submitted) }).workers i ≠
        .waiting := by
      intro i hi
      by_cases waiting : s.workers i = .waiting
      · cases (if_pos waiting).symm.trans hi
      · exact waiting ((if_neg waiting).symm.trans hi)
    exact ⟨fun i hi => absurd hi (none_waits i), fun i hi => absurd hi (none_waits i)⟩
  | destroy => exact ⟨att.opened, att.enough⟩

theorem init_attended : Attended (init : Pool J n) [] where
  opened _ _ := rfl
  enough _ _ := Nat.zero_le _

/-! ### Runs -/

/-- The queue in memory with its history, and the workers that attend to it. -/
structure Served (s : Pool J n) (l : List Nat) : Prop where
  own : Owned s.mem s.workers s.prepared l
  hist : History s l
  att : Attended s l

/-- What can happen happens without a fault, and its effect is that of the event with the workers it wakes. -/
theorem Served.step (served : Served s l) (can : s.condEnabled ev = true) :
    ∃ t l', s.condAct ev = some (t.notify ev) ∧ Effect s l ev.1 t l' ∧ Served (t.notify ev) l' := by
  obtain ⟨t, l', taken, effect⟩ := served.own.effect (Bool.and_eq_true_iff.mp can).1
  obtain ⟨workers, woken, roused⟩ := effect.roused can
  refine ⟨t, l', by rw [condAct, taken, Option.map_some], effect, ?_, ?_, served.att.step served.own can taken effect⟩
  · rw [woken]
    exact (served.own.step effect).rouse roused
  · rw [woken]
    exact (served.hist.step served.own effect).rouse roused

def Attentive (s : Pool J n) : Prop := ∃ l, Served s l

theorem CondReached.attentive (reached : s.CondReached) : s.Attentive := by
  refine Machine.Steps.invariant reached ?_ ?_
  · exact ⟨[], init_owned, init_history, init_attended⟩
  · rintro s t ev ⟨l, served⟩ taken can
    obtain ⟨u, l', hact, -, next⟩ := served.step can
    obtain rfl : t = u.notify ev := Option.some.inj (taken.symm.trans hact)
    exact ⟨l', next⟩

/-- The jobs between the two ends of the history are those of the queue. -/
theorem Served.length (served : Served s l) : s.submitted.length = s.dequeued.length + l.length := by
  have values : (s.mem.heap.values l).length = l.length := by
    have allocated : ∀ a ∈ l, (s.mem.heap.value a).isSome := by
      intro a ha
      obtain ⟨c, hc⟩ := served.own.queue.chain.allocated ha
      rw [Heap.value, hc]
      rfl
    rw [Heap.values, List.length_filterMap_eq_countP, List.countP_eq_length]
    exact allocated
  rw [← served.hist.order, List.length_append, values]

/-! ### The workers on their own -/

theorem condEnabled_of_moving {i : Fin n} (awake : s.workers i ≠ .waiting) (here : s.workers i ≠ .returned) :
    ∃ e : PoolEvent J n, e.ofWorker = true ∧ s.condEnabled (e, none) = true := by
  cases place : s.workers i with
  | ready => exact ⟨.turn i, rfl, by rw [condEnabled, enabled, place]; rfl⟩
  | waiting => exact absurd place awake
  | running w => exact ⟨.execute i, rfl, by rw [condEnabled, enabled, place]; rfl⟩
  | done w => exact ⟨.free i, rfl, by rw [condEnabled, enabled, place]; rfl⟩
  | returned => exact absurd place here

/-- No worker has a step of its own. -/
def Quiet (s : Pool J n) : Prop := ∀ e : PoolEvent J n, e.ofWorker = true → s.condEnabled (e, none) = false

theorem Quiet.place (quiet : s.Quiet) (i : Fin n) : s.workers i = .waiting ∨ s.workers i = .returned := by
  by_contra moving
  push Not at moving
  obtain ⟨e, own, can⟩ := condEnabled_of_moving moving.1 moving.2
  cases can.symm.trans (quiet e own)

theorem quiet_of_place (place : ∀ i, s.workers i = .waiting ∨ s.workers i = .returned) : s.Quiet := by
  intro e own
  cases e with
  | turn i | execute i | free i =>
    rcases place i with place | place <;> simp only [condEnabled, enabled, place] <;> rfl
  | malloc | submit | wake | shutdown | destroy => cases own

/-- Without a worker that moves, one that waits has nothing to wait for in the queue. -/
theorem Served.empty_of_waiting (served : Served s l) (quiet : s.Quiet) {i : Fin n} (waits : s.workers i = .waiting) :
    l = [] := by
  have none_ready : readyCount s.workers = 0 := by
    apply Finset.sum_eq_zero
    intro j _
    rcases quiet.place j with place | place <;> rw [place] <;> rfl
  have few := served.att.enough i waits
  rw [none_ready] at few
  exact List.eq_nil_of_length_eq_zero (Nat.le_zero.mp few)

theorem History.perm_of_quiet (hist : History s l) (quiet : s.Quiet) : s.executed.Perm s.dequeued := by
  have idle : ∑ i, toCall s.mem.heap (s.workers i) = 0 := by
    apply Finset.sum_eq_zero
    intro i _
    rcases quiet.place i with place | place <;> rw [place] <;> rfl
  have calls := hist.calls
  rw [idle, add_zero] at calls
  exact (Multiset.coe_eq_coe.mp calls).symm

/-- There is somebody to work, or nothing to do. -/
def Manned (s : Pool J n) (l : List Nat) : Prop := (∃ i, s.workers i ≠ .returned) ∨ l = []

theorem Manned.setWorker {i : Fin n} {x : Worker} (here : x ≠ .returned) (moved : t.workers = Function.update s.workers i x) :
    Manned t l' :=
  Or.inl ⟨i, by rwa [moved, Function.update_self]⟩

theorem Manned.step {e : PoolEvent J n} (own : e.ofWorker = true) (effect : Effect s l e t l') : Manned t l' := by
  cases effect with
  | @wait i ready => exact .setWorker (i := i) (x := .waiting) (fun h => by cases h) rfl
  | leave ready empty closed => exact Or.inr empty
  | @take i w => exact .setWorker (i := i) (x := .running w) (fun h => by cases h) rfl
  | @execute i w => exact .setWorker (i := i) (x := .done w) (fun h => by cases h) rfl
  | @free i w => exact .setWorker (i := i) (x := .ready) (fun h => by cases h) rfl
  | malloc | submit | wake | shutdown | destroy => cases own

theorem weight_update (workers : Fin n → Worker) (i : Fin n) (x : Worker) :
    ∑ j, (Function.update workers i x j).weight + (workers i).weight = x.weight + ∑ j, (workers j).weight :=
  Threads.sum_update Worker.weight workers i x

/-- Each step of a worker is one of those that were counted. -/
theorem Served.work_step {e : PoolEvent J n} (served : Served s l) (own : e.ofWorker = true)
    (effect : Effect s l e t l') : t.work + 1 = s.work ∧ t.submitted = s.submitted ∧ t.mem.shutdown = s.mem.shutdown := by
  have length := served.length
  cases effect with
  | @wait i ready =>
    have moved := weight_update s.workers i .waiting
    rw [ready] at moved
    refine ⟨?_, rfl, rfl⟩
    simp only [work, Worker.weight] at moved ⊢
    omega
  | @leave i ready empty closed =>
    have moved := weight_update s.workers i .returned
    rw [ready] at moved
    refine ⟨?_, rfl, rfl⟩
    simp only [work, Worker.weight] at moved ⊢
    omega
  | @take i w rest job tp ready first value queue heap same =>
    have moved := weight_update s.workers i (.running w)
    rw [ready] at moved
    rw [first, List.length_cons] at length
    refine ⟨?_, rfl, same⟩
    simp only [work, Worker.weight, List.length_append, List.length_singleton] at moved ⊢
    omega
  | @execute i w job running value =>
    have moved := weight_update s.workers i (.done w)
    rw [running] at moved
    refine ⟨?_, rfl, rfl⟩
    simp only [work, Worker.weight] at moved ⊢
    omega
  | @free i w done =>
    have moved := weight_update s.workers i .ready
    rw [done] at moved
    refine ⟨?_, rfl, rfl⟩
    simp only [work, Worker.weight] at moved ⊢
    omega
  | malloc | submit | wake | shutdown | destroy => cases own

theorem notify_of_worker (own : ev.1.ofWorker = true) : t.notify ev = t := by
  obtain ⟨e, woken⟩ := ev
  cases e with
  | turn | execute | free => rfl
  | malloc | submit | wake | shutdown | destroy => cases own

/-- What holds while the workers of `s` are left to themselves: the pool is served, somebody is there while there is a
job, and no job comes in. -/
def LeftAlone (s t : Pool J n) : Prop :=
  ∃ l, t.Served l ∧ t.Manned l ∧ t.submitted = s.submitted ∧ t.mem.shutdown = s.mem.shutdown

theorem LeftAlone.step {u v : Pool J n} (alone : LeftAlone s u) (taken : u.condAct ev = some v)
    (can : u.condEnabled ev = true) (own : ev.1.ofWorker = true) : LeftAlone s v ∧ v.work + 1 = u.work := by
  obtain ⟨l, served, -, jobs, closed⟩ := alone
  obtain ⟨w, l', hact, effect, next⟩ := served.step can
  rw [notify_of_worker own] at hact next
  obtain rfl : v = w := Option.some.inj (taken.symm.trans hact)
  obtain ⟨lower, jobs', closed'⟩ := served.work_step own effect
  exact ⟨⟨l', next, .step own effect, jobs'.trans jobs, closed'.trans closed⟩, lower⟩

/-- When the workers cannot go on, the queue is empty. -/
theorem LeftAlone.drained (alone : LeftAlone s t) (quiet : t.Quiet) : t.dequeued = s.submitted ∧ t.work = 0 := by
  obtain ⟨l, served, manned, jobs, -⟩ := alone
  have empty : l = [] := by
    rcases manned with ⟨i, stays⟩ | empty
    · exact served.empty_of_waiting quiet ((quiet.place i).resolve_right stays)
    · exact empty
  subst empty
  have idle : ∑ i, (t.workers i).weight = 0 := by
    apply Finset.sum_eq_zero
    intro i _
    rcases quiet.place i with place | place <;> rw [place] <;> rfl
  have order := served.hist.order
  rw [Heap.values, List.filterMap_nil, List.append_nil] at order
  refine ⟨order.trans jobs, ?_⟩
  rw [work, idle, order]
  omega

end Pool

/-- While a worker waits the pool is open, and as many workers are about to look at the queue as there are jobs in
it. Until all workers have left, jobs in the queue or the shutdown always let some worker go on. -/
theorem thread_pool_attended (s : Pool J n) (reached : s.CondReached) :
    (∀ i, s.workers i = .waiting → s.mem.shutdown = false ∧
      s.submitted.length ≤ s.dequeued.length + Pool.readyCount s.workers) ∧
    ((∃ i, s.workers i ≠ .returned) → s.mem.head ≠ none ∨ s.mem.shutdown = true →
      ∃ e t, e.ofWorker = true ∧ s.condEnabled (e, none) = true ∧ s.condAct (e, none) = some t) := by
  obtain ⟨l, served⟩ := reached.attentive
  constructor
  · intro i waits
    refine ⟨served.att.opened i waits, ?_⟩
    rw [served.length]
    exact Nat.add_le_add_left (served.att.enough i waits) _
  · rintro ⟨i, here⟩ work
    suffices moves : ∃ e : PoolEvent J n, e.ofWorker = true ∧ s.condEnabled (e, none) = true by
      obtain ⟨e, own, can⟩ := moves
      obtain ⟨t, l', taken, -⟩ := served.step can
      exact ⟨e, _, own, can, taken⟩
    by_contra stuck
    push Not at stuck
    have quiet : s.Quiet := fun e own => Bool.eq_false_iff.mpr (stuck e own)
    have waits : s.workers i = .waiting := (quiet.place i).resolve_right here
    rcases work with job | closed
    · have chain := served.own.queue.chain
      rw [served.empty_of_waiting quiet waits] at chain
      exact job chain
    · cases closed.symm.trans (served.att.opened i waits)

/-- Two of three workers wait, and a job wakes one of them. -/
def oneSignal : List (PoolEvent Nat 3 × Option (Fin 3)) :=
  [(.turn 0, none), (.turn 1, none), (.malloc 0 7, none), (.submit 0, some 1)]

theorem thread_pool_oneSignal :
    ∃ s : Pool Nat 3, s.CondReached ∧ s.workers 0 = .waiting ∧ s.submitted.length ≤ 0 + Pool.readyCount s.workers ∧
      ∃ e t, e.ofWorker = true ∧ s.condEnabled (e, none) = true ∧ s.condAct (e, none) = some t := by
  have hrun : ((Machine.exec Pool.condAct (fun s ev _ => s.condEnabled ev) Pool.init oneSignal).map fun s =>
      (s.workers 0, s.mem.head, s.dequeued)) = some (.waiting, some 0, []) := by
    decide +kernel
  obtain ⟨s, hexec, hs⟩ := Option.map_eq_some_iff.mp hrun
  obtain ⟨waits, head, untaken⟩ : s.workers 0 = .waiting ∧ s.mem.head = some 0 ∧ s.dequeued = [] := by
    simpa only [Prod.mk.injEq] using hs
  have reached : s.CondReached := .of_exec (fun s ev _ => s.condEnabled ev) oneSignal (fun _ can => can) hexec
  obtain ⟨attended, goesOn⟩ := thread_pool_attended s reached
  have enough := (attended 0 waits).2
  rw [untaken] at enough
  refine ⟨s, reached, waits, enough, goesOn ⟨0, ?_⟩ (Or.inl ?_)⟩
  · rw [waits]
    exact Worker.noConfusion
  · rw [head]
    exact Option.some_ne_none 0

/-- Left to themselves the workers make exactly the steps that `work` counts. When they cannot go on, all jobs that were
submitted have been called, once each; after the shutdown all workers have returned, and before it those that are
left wait. -/
theorem thread_pool_finishes (s t : Pool J n) (reached : s.CondReached) (here : ∃ i, s.workers i ≠ .returned)
    (evs : List (PoolEvent J n × Option (Fin n)))
    (run : Machine.Trace Pool.condAct (fun s ev _ => s.condEnabled ev = true ∧ ev.1.ofWorker = true) s evs t) :
    evs.length + t.work = s.work ∧
    (t.Quiet → t.work = 0 ∧ t.executed.Perm s.submitted ∧ (s.mem.shutdown = true → ∀ i, t.workers i = .returned)) := by
  obtain ⟨l, served⟩ := reached.attentive
  have start : s.LeftAlone s := ⟨l, served, Or.inl here, rfl, rfl⟩
  have along : s.LeftAlone t ∧ evs.length + t.work = s.work :=
    run.length_add start fun alone taken good => alone.step taken good.1 good.2
  obtain ⟨alone, count⟩ := along
  refine ⟨count, fun quiet => ?_⟩
  obtain ⟨taken, done⟩ := alone.drained quiet
  obtain ⟨l', last, -, -, closed⟩ := alone
  refine ⟨done, taken ▸ last.hist.perm_of_quiet quiet, fun down i => ?_⟩
  rcases quiet.place i with waits | left
  · cases (closed.trans down).symm.trans (last.att.opened i waits)
  · exact left

/-- The shutdown comes while one worker waits and the others are on their way to the job. -/
def closing : List (PoolEvent Nat 3 × Option (Fin 3)) :=
  [(.turn 0, none), (.execute 0, none), (.turn 1, none), (.free 0, none), (.turn 2, none), (.turn 0, none)]

theorem thread_pool_closing :
    ∃ s t : Pool Nat 3, s.CondReached ∧ s.submitted = [7] ∧ closing.length + t.work = s.work ∧
      t.executed.Perm s.submitted ∧ ∀ i, t.workers i = .returned := by
  have hrun : ((Machine.exec Pool.condAct (fun s ev _ => s.condEnabled ev) Pool.init
      (oneSignal ++ [(.shutdown, none)])).bind fun s =>
      (Machine.exec Pool.condAct (fun s ev _ => s.condEnabled ev && ev.1.ofWorker) s closing).map fun t =>
        (s.submitted, s.mem.shutdown, s.workers 0, decide (∀ i, t.workers i = .returned))) =
      some ([7], true, .ready, true) := by
    decide +kernel
  obtain ⟨s, hexec, hs⟩ := Option.bind_eq_some_iff.mp hrun
  obtain ⟨t, hclosing, ht⟩ := Option.map_eq_some_iff.mp hs
  obtain ⟨jobs, down, ready, left⟩ : s.submitted = [7] ∧ s.mem.shutdown = true ∧ s.workers 0 = .ready ∧ _ = true := by
    simpa only [Prod.mk.injEq] using ht
  have reached : s.CondReached := .of_exec (fun s ev _ => s.condEnabled ev) _ (fun _ can => can) hexec
  have run : Machine.Trace Pool.condAct (fun s ev _ => s.condEnabled ev = true ∧ ev.1.ofWorker = true) s closing t :=
    .of_exec (fun s ev _ => s.condEnabled ev && ev.1.ofWorker) _ (fun _ good => Bool.and_eq_true_iff.mp good) hclosing
  have here : s.workers 0 ≠ .returned := by
    rw [ready]
    exact Worker.noConfusion
  obtain ⟨count, finished⟩ := thread_pool_finishes s t reached ⟨0, here⟩ closing run
  obtain ⟨-, called, returned⟩ := finished (Pool.quiet_of_place fun i => Or.inr (of_decide_eq_true left i))
  exact ⟨s, t, reached, jobs, count, called, returned down⟩

end AegisTunnel
