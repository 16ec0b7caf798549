import AegisTunnel.Lib.Threads
import AegisTunnel.ThreadPool

/-! # The thread pool runs each job once

The list in memory is followed through every interleaving: its nodes belong to the queue, those of a call that
has not locked the mutex yet and those of the workers are apart from them and from each other. The jobs leave
the queue in the order in which they came, and the workers leave only when it is empty. -/

namespace AegisTunnel
open Linked

variable {J : Type} {n : Nat}

/-! ### The locked sections -/

namespace PoolMem
variable {tp : PoolMem J} {l : List Nat} {w : Nat}

/-- The nodes `l` are the queue. -/
structure Queue (tp : PoolMem J) (l : List Nat) : Prop where
  chain : tp.heap.Chain tp.head l
  last : tp.tail = l.getLast?
  count : tp.pending = Int32.ofNat l.length

theorem init_queue : Queue (init : PoolMem J) [] := ⟨rfl, rfl, rfl⟩

/-- `threadpool_submit` appends its work item. -/
theorem Queue.submit {new : Cell Nat J} (queue : tp.Queue l) (fresh : w ∉ l) (alone : tp.heap w = some new)
    (ends : new.next = none) :
    ∃ tp', tp.submit w = some tp' ∧ tp'.Queue (l ++ [w]) ∧ tp'.shutdown = tp.shutdown ∧
      (∀ a, tp'.heap.value a = tp.heap.value a) ∧ ∀ a, a ∉ l → tp'.heap a = tp.heap a := by
  have hcount : tp.pending + 1 = Int32.ofNat (l ++ [w]).length := by
    rw [queue.count, List.length_append, Int32.ofNat_add]
    rfl
  unfold PoolMem.submit
  rcases List.eq_nil_or_concat l with rfl | ⟨front, t, hl⟩
  · have htail : tp.tail = none := queue.last
    simp only [htail]
    exact ⟨_, rfl, ⟨⟨rfl, new, alone, ends⟩, rfl, hcount⟩, rfl, fun _ => rfl, fun _ _ => rfl⟩
  · rw [List.concat_eq_append] at hl
    subst hl
    have htail : tp.tail = some t := queue.last.trans List.getLast?_concat
    obtain ⟨c, hc⟩ := queue.chain.allocated (List.mem_append_right front (List.mem_singleton_self t))
    simp only [htail, hc, Option.map_some]
    refine ⟨_, rfl, ⟨queue.chain.concat c fresh alone ends, List.getLast?_concat.symm, hcount⟩, rfl, ?_, ?_⟩
    · exact Heap.value_link hc _
    · intro a ha
      have hne : a ≠ t := by
        rintro rfl
        exact ha (List.mem_append_right front (List.mem_singleton_self a))
      exact Heap.link_of_ne hne _

/-- A worker takes the first work item; without one it waits, or leaves after `shutdown` is set. -/
theorem Queue.turn (queue : tp.Queue l) :
    (l = [] ∧ tp.turn = some (if tp.shutdown then .leave else .wait, tp)) ∨
    ∃ w rest tp', l = w :: rest ∧ tp.turn = some (.take w, tp') ∧ tp'.Queue rest ∧ tp'.heap = tp.heap ∧
      tp'.shutdown = tp.shutdown := by
  unfold PoolMem.turn
  cases l with
  | nil =>
    have hhead : tp.head = none := queue.chain
    simp only [hhead]
    exact Or.inl ⟨trivial, trivial⟩
  | cons w rest =>
    obtain ⟨hhead, c, hc, chain⟩ := queue.chain
    have hcount : tp.pending - 1 = Int32.ofNat rest.length := by
      rw [queue.count, List.length_cons, Int32.ofNat_add]
      exact Int32.add_sub_cancel ..
    refine Or.inr ⟨w, rest, ?_⟩
    simp only [hhead]
    cases rest with
    | nil =>
      have htail : tp.tail = some w := queue.last
      simp only [htail, if_true]
      exact ⟨_, trivial, rfl, ⟨rfl, rfl, hcount⟩, rfl, rfl⟩
    | cons x rest =>
      -- The last node is another one, because no node is in the list twice.
      have htail : tp.tail ≠ some w := by
        intro same
        have hlast : (x :: rest).getLast? = some w := queue.last.symm.trans same
        exact (List.nodup_cons.mp queue.chain.nodup).1 (List.mem_of_getLast? hlast)
      simp only [if_neg htail, hc, Option.map_some]
      exact ⟨_, trivial, rfl, ⟨chain, queue.last, hcount⟩, rfl, rfl⟩

end PoolMem

namespace Pool

/-! ### Who has which work item -/

/-- The queue, the calls before their locked section and the workers have work items of their own. -/
structure Owned (tp : PoolMem J) (workers : Fin n → Worker) (prepared l : List Nat) : Prop where
  queue : tp.Queue l
  alone : ∀ w ∈ prepared, w ∉ l ∧ ∃ job, tp.heap w = some ⟨job, none⟩
  once : prepared.Nodup
  item : ∀ i w, (workers i).item = some w → w ∉ l ∧ w ∉ prepared ∧ ∃ c, tp.heap w = some c
  apart : ∀ i j w, (workers i).item = some w → (workers j).item = some w → i = j

variable {s t : Pool J n} {l l' : List Nat} {e : PoolEvent J n}

/-- What an event does to the pool and to its queue. -/
inductive Effect (s : Pool J n) (l : List Nat) : PoolEvent J n → Pool J n → List Nat → Prop where
  | malloc {w : Nat} (job : J) (fresh : s.mem.heap w = none) :
      Effect s l (.malloc w job)
        { s with
          mem := { s.mem with heap := Function.update s.mem.heap w (some ⟨job, none⟩) }, prepared := w :: s.prepared } l
  | submit {w : Nat} {job : J} {tp : PoolMem J} (mine : w ∈ s.prepared) (value : s.mem.heap.value w = some job)
      (queue : tp.Queue (l ++ [w])) (same : tp.shutdown = s.mem.shutdown)
      (values : ∀ a, tp.heap.value a = s.mem.heap.value a) (others : ∀ a, a ∉ l → tp.heap a = s.mem.heap a) :
      Effect s l (.submit w)
        { s with mem := tp, prepared := s.prepared.erase w, submitted := s.submitted ++ [job] } (l ++ [w])
  | wait {i : Fin n} (ready : s.workers i = .ready) :
      Effect s l (.turn i) { s with workers := Function.update s.workers i .waiting } l
  | leave {i : Fin n} (ready : s.workers i = .ready) (empty : l = []) (closed : s.mem.shutdown = true) :
      Effect s l (.turn i) { s with workers := Function.update s.workers i .returned } l
  | take {i : Fin n} {w : Nat} {rest : List Nat} {job : J} {tp : PoolMem J} (ready : s.workers i = .ready)
      (first : l = w :: rest) (value : s.mem.heap.value w = some job) (queue : tp.Queue rest)
      (heap : tp.heap = s.mem.heap) (same : tp.shutdown = s.mem.shutdown) :
      Effect s l (.turn i)
        { s with
          mem := tp, workers := Function.update s.workers i (.running w), dequeued := s.dequeued ++ [job] } rest
  | wake {i : Fin n} (waiting : s.workers i = .waiting) :
      Effect s l (.wake i) { s with workers := Function.update s.workers i .ready } l
  | execute {i : Fin n} {w : Nat} {job : J} (running : s.workers i = .running w) (value : s.mem.heap.value w = some job) :
      Effect s l (.execute i)
        { s with workers := Function.update s.workers i (.done w), executed := s.executed ++ [job] } l
  | free {i : Fin n} {w : Nat} (done : s.workers i = .done w) :
      Effect s l (.free i)
        { s with
          mem := { s.mem with heap := Function.update s.mem.heap w none }
          workers := Function.update s.workers i .ready } l
  | shutdown : Effect s l .shutdown
      { s with mem := { s.mem with shutdown := true }, early := s.early.or (some s.submitted) } l
  | destroy : Effect s l .destroy { s with freed := true } l

/-- What can happen happens without a fault. -/
theorem Owned.effect (own : Owned s.mem s.workers s.prepared l) (can : s.enabled e = true) :
    ∃ t l', s.act e = some t ∧ Effect s l e t l' := by
  cases e with
  | malloc w job => exact ⟨_, l, rfl, .malloc job (Option.isNone_iff_eq_none.mp can)⟩
  | submit w =>
    have mine : w ∈ s.prepared := List.contains_iff_mem.mp (Bool.and_eq_true_iff.mp can).2
    obtain ⟨fresh, job, hw⟩ := own.alone w mine
    obtain ⟨tp, hsubmit, queue, same, values, others⟩ := own.queue.submit fresh hw rfl
    have value : s.mem.heap.value w = some job := by rw [Heap.value, hw, Option.map_some]
    refine ⟨_, l ++ [w], ?_, .submit mine value queue same values others⟩
    simp only [act, hsubmit, Option.map_some, value, Option.toList_some]
  | turn i =>
    have ready : s.workers i = .ready := beq_iff_eq.mp can
    rcases own.queue.turn with ⟨empty, hturn⟩ | ⟨w, rest, tp, first, hturn, queue, heap, same⟩
    · cases closed : s.mem.shutdown with
      | true =>
        refine ⟨_, l, ?_, .leave ready empty closed⟩
        simp only [act, hturn, closed, if_true, Option.map_some]
      | false =>
        refine ⟨_, l, ?_, .wait ready⟩
        simp only [act, hturn, closed, Bool.false_eq_true, if_false, Option.map_some]
    · obtain ⟨c, hc⟩ := own.queue.chain.allocated (first ▸ List.mem_cons_self ..)
      have value : s.mem.heap.value w = some c.value := by rw [Heap.value, hc, Option.map_some]
      refine ⟨_, rest, ?_, .take ready first value queue heap same⟩
      simp only [act, hturn, Option.map_some, value, Option.toList_some]
  | wake i => exact ⟨_, l, rfl, .wake (beq_iff_eq.mp can)⟩
  | execute i =>
    cases running : s.workers i with
    | running w =>
      have held : (s.workers i).item = some w := by rw [running]; rfl
      obtain ⟨-, -, c, hc⟩ := own.item i w held
      have value : s.mem.heap.value w = some c.value := by rw [Heap.value, hc, Option.map_some]
      refine ⟨_, l, ?_, .execute running value⟩
      simp only [act, held, hc, Option.bind_eq_bind, Option.bind_some]
    | _ => rw [enabled, running] at can; cases can
  | free i =>
    cases done : s.workers i with
    | done w =>
      have held : (s.workers i).item = some w := by rw [done]; rfl
      obtain ⟨-, -, c, hc⟩ := own.item i w held
      refine ⟨_, l, ?_, .free done⟩
      simp only [act, held, hc, Option.bind_eq_bind, Option.bind_some]
    | _ => rw [enabled, done] at can; cases can
  | shutdown => exact ⟨_, l, rfl, .shutdown⟩
  | destroy => exact ⟨_, l, rfl, .destroy⟩

/-! ### Work items stay apart -/

section Owned
variable {tp tp' : PoolMem J} {workers workers' : Fin n → Worker} {prepared : List Nat} {w : Nat} {i : Fin n}

theorem item_update {x : Worker} {j : Fin n} (h : (Function.update workers i x j).item = some w) :
    (j = i ∧ x.item = some w) ∨ (j ≠ i ∧ (workers j).item = some w) := by
  by_cases same : j = i
  · subst same
    rw [Function.update_self] at h
    exact Or.inl ⟨rfl, h⟩
  · rw [Function.update_of_ne same] at h
    exact Or.inr ⟨same, h⟩

/-- A worker may keep its work item or give it up. -/
theorem Owned.setWorker (own : Owned tp workers prepared l) (x : Worker)
    (keep : ∀ w, x.item = some w → (workers i).item = some w) : Owned tp (Function.update workers i x) prepared l := by
  have had : ∀ j w, (Function.update workers i x j).item = some w → (workers j).item = some w := by
    intro j w h
    rcases item_update h with ⟨rfl, hx⟩ | ⟨-, hj⟩
    · exact keep w hx
    · exact hj
  exact ⟨own.queue, own.alone, own.once, fun j w h => own.item j w (had j w h),
    fun j k w hj hk => own.apart j k w (had j w hj) (had k w hk)⟩

theorem Owned.malloc (own : Owned tp workers prepared l) (fresh : tp.heap w = none) (job : J) :
    Owned { tp with heap := Function.update tp.heap w (some ⟨job, none⟩) } workers (w :: prepared) l := by
  have hne : ∀ {a c}, tp.heap a = some c → a ≠ w := by
    rintro a c ha rfl
    cases fresh.symm.trans ha
  have hl : w ∉ l := by
    intro hmem
    obtain ⟨c, hc⟩ := own.queue.chain.allocated hmem
    exact hne hc rfl
  refine ⟨⟨own.queue.chain.update hl _, own.queue.last, own.queue.count⟩, ?_, ?_, ?_, own.apart⟩
  · intro a ha
    rcases List.mem_cons.mp ha with rfl | ha
    · exact ⟨hl, job, Function.update_self ..⟩
    · obtain ⟨hfresh, other, hother⟩ := own.alone a ha
      exact ⟨hfresh, other, (Function.update_of_ne (hne hother) ..).trans hother⟩
  · refine List.nodup_cons.mpr ⟨?_, own.once⟩
    intro hmem
    obtain ⟨-, other, hother⟩ := own.alone w hmem
    exact hne hother rfl
  · intro j a ha
    obtain ⟨hfresh, hprep, c, hc⟩ := own.item j a ha
    refine ⟨hfresh, ?_, c, (Function.update_of_ne (hne hc) ..).trans hc⟩
    intro hmem
    rcases List.mem_cons.mp hmem with rfl | hmem
    · exact hne hc rfl
    · exact hprep hmem

theorem Owned.submit (own : Owned tp workers prepared l) (mine : w ∈ prepared) (queue : tp'.Queue (l ++ [w]))
    (others : ∀ a, a ∉ l → tp'.heap a = tp.heap a) : Owned tp' workers (prepared.erase w) (l ++ [w]) := by
  refine ⟨queue, ?_, own.once.erase w, ?_, own.apart⟩
  · intro a ha
    obtain ⟨hne, hprep⟩ := own.once.mem_erase_iff.mp ha
    obtain ⟨hfresh, job, hjob⟩ := own.alone a hprep
    refine ⟨?_, job, (others a hfresh).trans hjob⟩
    intro hmem
    rcases List.mem_append.mp hmem with hmem | hmem
    · exact hfresh hmem
    · exact hne (List.mem_singleton.mp hmem)
  · intro j a ha
    obtain ⟨hfresh, hprep, c, hc⟩ := own.item j a ha
    refine ⟨?_, fun hmem => hprep (List.mem_of_mem_erase hmem), c, (others a hfresh).trans hc⟩
    intro hmem
    rcases List.mem_append.mp hmem with hmem | hmem
    · exact hfresh hmem
    · rw [List.mem_singleton.mp hmem] at hprep
      exact hprep mine

theorem Owned.take {rest : List Nat} (own : Owned tp workers prepared (w :: rest)) (queue : tp'.Queue rest)
    (heap : tp'.heap = tp.heap) : Owned tp' (Function.update workers i (.running w)) prepared rest := by
  obtain ⟨hw, -⟩ := List.nodup_cons.mp own.queue.chain.nodup
  have hprep : w ∉ prepared := fun hmem => (own.alone w hmem).1 (List.mem_cons_self ..)
  have hother : ∀ j, (workers j).item ≠ some w := fun j hj => (own.item j w hj).1 (List.mem_cons_self ..)
  refine ⟨queue, ?_, own.once, ?_, ?_⟩
  · intro a ha
    obtain ⟨hfresh, job, hjob⟩ := own.alone a ha
    exact ⟨fun hmem => hfresh (List.mem_cons_of_mem _ hmem), job, by rw [heap, hjob]⟩
  · intro j a ha
    rw [heap]
    rcases item_update ha with ⟨-, hx⟩ | ⟨-, hj⟩
    · obtain rfl : w = a := Option.some.inj hx
      exact ⟨hw, hprep, own.queue.chain.allocated (List.mem_cons_self ..)⟩
    · obtain ⟨hfresh, hprep, c, hc⟩ := own.item j a hj
      exact ⟨fun hmem => hfresh (List.mem_cons_of_mem _ hmem), hprep, c, hc⟩
  · intro j k a hj hk
    rcases item_update hj with ⟨rfl, hx⟩ | ⟨-, hold⟩
    · obtain rfl : w = a := Option.some.inj hx
      rcases item_update hk with ⟨rfl, -⟩ | ⟨-, hk'⟩
      · rfl
      · exact absurd hk' (hother k)
    · rcases item_update hk with ⟨rfl, hx⟩ | ⟨-, hk'⟩
      · obtain rfl : w = a := Option.some.inj hx
        exact absurd hold (hother j)
      · exact own.apart j k a hold hk'

theorem Owned.free (own : Owned tp workers prepared l) (held : (workers i).item = some w) :
    Owned { tp with heap := Function.update tp.heap w none } (Function.update workers i .ready) prepared l := by
  obtain ⟨hl, hprep, -⟩ := own.item i w held
  refine ⟨⟨own.queue.chain.update hl _, own.queue.last, own.queue.count⟩, ?_, own.once, ?_, ?_⟩
  · intro a ha
    obtain ⟨hfresh, job, hjob⟩ := own.alone a ha
    exact ⟨hfresh, job, (Function.update_of_ne (ne_of_mem_of_not_mem ha hprep) ..).trans hjob⟩
  · intro j a ha
    rcases item_update ha with ⟨-, hx⟩ | ⟨hne, hj⟩
    · cases hx
    · obtain ⟨hfresh, hprep, c, hc⟩ := own.item j a hj
      have hother : a ≠ w := by
        rintro rfl
        exact hne (own.apart j i a hj held)
      exact ⟨hfresh, hprep, c, (Function.update_of_ne hother ..).trans hc⟩
  · intro j k a hj hk
    rcases item_update hj with ⟨-, hx⟩ | ⟨-, hj⟩
    · cases hx
    · rcases item_update hk with ⟨-, hx⟩ | ⟨-, hk⟩
      · cases hx
      · exact own.apart j k a hj hk

end Owned

theorem Owned.step (own : Owned s.mem s.workers s.prepared l) (effect : Effect s l e t l') :
    Owned t.mem t.workers t.prepared l' := by
  cases effect with
  | malloc job fresh => exact own.malloc fresh job
  | submit mine value queue same values others => exact own.submit mine queue others
  | wait ready => exact own.setWorker .waiting fun w h => by cases h
  | leave ready empty closed => exact own.setWorker .returned fun w h => by cases h
  | take ready first value queue heap same =>
    subst first
    exact own.take queue heap
  | wake waiting => exact own.setWorker .ready fun w h => by cases h
  | @execute i w job running value =>
    apply own.setWorker (.done w)
    intro a ha
    rw [running]
    exact ha
  | free done =>
    apply own.free
    rw [done]
    rfl
  | shutdown => exact ⟨⟨own.queue.chain, own.queue.last, own.queue.count⟩, own.alone, own.once, own.item, own.apart⟩
  | destroy => exact own

/-! ### The history -/

/-- The job that a worker has taken and not called yet. -/
def toCall (h : Heap Nat J) : Worker → Multiset J
  | .running w => (h.value w).toList
  | _ => 0

/-- Jobs are taken in the order in which they are submitted; those taken are called or about to be called; once a
worker has left, those submitted before `shutdown` was set are taken. -/
structure History (s : Pool J n) (l : List Nat) : Prop where
  order : s.dequeued ++ s.mem.heap.values l = s.submitted
  calls : (s.dequeued : Multiset J) = s.executed + ∑ i, toCall s.mem.heap (s.workers i)
  early : ∀ jobs, s.early = some jobs → jobs <+: s.submitted
  closed : s.mem.shutdown = true → s.early.isSome = true
  drained : ∀ i, s.workers i = .returned → ∃ jobs, s.early = some jobs ∧ jobs <+: s.dequeued

section History
variable {h h' : Heap Nat J} {workers : Fin n → Worker} {i : Fin n} {x : Worker}

theorem toCall_congr (same : ∀ w, x.item = some w → h'.value w = h.value w) : toCall h' x = toCall h x := by
  cases x with
  | running w => rw [toCall, toCall, same w rfl]
  | _ => rfl

/-- A worker without a job to call goes to a place without one. -/
theorem sum_toCall_of_none (h : Heap Nat J) (old : toCall h (workers i) = 0) (new : toCall h x = 0) :
    ∑ j, toCall h (Function.update workers i x j) = ∑ j, toCall h (workers j) := by
  have hsum := Threads.sum_update (toCall h) workers i x
  rwa [old, new, add_zero, zero_add] at hsum

theorem returned_update {j : Fin n} (hx : x ≠ .returned) (hj : Function.update workers i x j = .returned) :
    workers j = .returned := by
  by_cases same : j = i
  · subst same
    rw [Function.update_self] at hj
    exact absurd hj hx
  · rwa [Function.update_of_ne same] at hj

theorem value_update_of_ne {a w : Nat} (ne : a ≠ w) (c : Option (Cell Nat J)) :
    Heap.value (Function.update h w c) a = h.value a := by
  rw [Heap.value, Function.update_of_ne ne, ← Heap.value]

end History

/-- A worker changes its place, and has no job to call before and afterwards. -/
theorem History.setWorker (hist : History s l) {i : Fin n} {x : Worker} (old : toCall s.mem.heap (s.workers i) = 0)
    (new : toCall s.mem.heap x = 0)
    (left : x = .returned → ∃ jobs, s.early = some jobs ∧ jobs <+: s.dequeued) :
    History { s with workers := Function.update s.workers i x } l where
  order := hist.order
  calls := by
    show (s.dequeued : Multiset J) = s.executed + ∑ j, toCall s.mem.heap (Function.update s.workers i x j)
    rw [sum_toCall_of_none _ old new]
    exact hist.calls
  early := hist.early
  closed := hist.closed
  drained := by
    intro j hj
    by_cases gone : x = .returned
    · exact left gone
    · exact hist.drained j (returned_update gone hj)

/-- The heap changes away from the queue and from the work items of the workers. -/
theorem History.setHeap (hist : History s l) {h : Heap Nat J} (queued : ∀ a ∈ l, h.value a = s.mem.heap.value a)
    (items : ∀ i w, (s.workers i).item = some w → h.value w = s.mem.heap.value w) (prepared : List Nat) :
    History { s with mem := { s.mem with heap := h }, prepared := prepared } l where
  order := by
    show s.dequeued ++ h.values l = s.submitted
    rw [Heap.values_congr queued, hist.order]
  calls := by
    show (s.dequeued : Multiset J) = s.executed + ∑ i, toCall h (s.workers i)
    rw [Finset.sum_congr rfl fun i _ => toCall_congr (items i), hist.calls]
  early := hist.early
  closed := hist.closed
  drained := hist.drained

theorem History.submit (hist : History s l) {w : Nat} {job : J} {tp : PoolMem J} (value : s.mem.heap.value w = some job)
    (same : tp.shutdown = s.mem.shutdown) (values : ∀ a, tp.heap.value a = s.mem.heap.value a) (prepared : List Nat) :
    History { s with mem := tp, prepared := prepared, submitted := s.submitted ++ [job] } (l ++ [w]) where
  order := by
    show s.dequeued ++ tp.heap.values (l ++ [w]) = s.submitted ++ [job]
    rw [Heap.values_congr fun a _ => values a, Heap.values_concat, value, ← List.append_assoc, hist.order]
    rfl
  calls := by
    show (s.dequeued : Multiset J) = s.executed + ∑ i, toCall tp.heap (s.workers i)
    rw [Finset.sum_congr rfl fun i _ => toCall_congr fun a _ => values a, hist.calls]
  early jobs hjobs := (hist.early jobs hjobs).trans (List.prefix_append ..)
  closed hclosed := hist.closed (same.symm.trans hclosed)
  drained := hist.drained

/-- A worker leaves an empty queue: all that was submitted is taken. -/
theorem History.leave (hist : History s []) (closed : s.mem.shutdown = true) :
    ∃ jobs, s.early = some jobs ∧ jobs <+: s.dequeued := by
  obtain ⟨jobs, hjobs⟩ := Option.isSome_iff_exists.mp (hist.closed closed)
  have horder := hist.order
  rw [Heap.values, List.filterMap_nil, List.append_nil] at horder
  exact ⟨jobs, hjobs, horder ▸ hist.early jobs hjobs⟩

theorem History.take {i : Fin n} {w : Nat} {rest : List Nat} (hist : History s (w :: rest)) {job : J} {tp : PoolMem J}
    (ready : s.workers i = .ready) (value : s.mem.heap.value w = some job) (heap : tp.heap = s.mem.heap)
    (same : tp.shutdown = s.mem.shutdown) :
    History
      { s with mem := tp, workers := Function.update s.workers i (.running w), dequeued := s.dequeued ++ [job] } rest where
  order := by
    show s.dequeued ++ [job] ++ tp.heap.values rest = s.submitted
    rw [← hist.order, Heap.values_cons, value, heap, List.append_assoc]
    rfl
  calls := by
    show ((s.dequeued ++ [job] : List J) : Multiset J) =
      s.executed + ∑ j, toCall tp.heap (Function.update s.workers i (.running w) j)
    have hsum := Threads.sum_update (toCall s.mem.heap) s.workers i (.running w)
    have hold : toCall s.mem.heap (s.workers i) = 0 := by rw [ready]; rfl
    have hnew : toCall s.mem.heap (.running w) = ([job] : Multiset J) := by rw [toCall, value]; rfl
    rw [hold, hnew, add_zero] at hsum
    rw [heap, hsum, ← Multiset.coe_add, hist.calls]
    abel
  early := hist.early
  closed hclosed := hist.closed (same.symm.trans hclosed)
  drained := by
    intro j hj
    obtain ⟨jobs, hjobs, hle⟩ := hist.drained j (returned_update (fun h => by cases h) hj)
    exact ⟨jobs, hjobs, hle.trans (List.prefix_append ..)⟩

theorem History.execute (hist : History s l) {i : Fin n} {w : Nat} {job : J} (running : s.workers i = .running w)
    (value : s.mem.heap.value w = some job) :
    History { s with workers := Function.update s.workers i (.done w), executed := s.executed ++ [job] } l where
  order := hist.order
  calls := by
    show (s.dequeued : Multiset J) = ((s.executed ++ [job] : List J) : Multiset J) +
      ∑ j, toCall s.mem.heap (Function.update s.workers i (.done w) j)
    have hsum := Threads.sum_update (toCall s.mem.heap) s.workers i (.done w)
    have hold : toCall s.mem.heap (s.workers i) = ([job] : Multiset J) := by rw [running, toCall, value]; rfl
    have hnew : toCall s.mem.heap (.done w) = (0 : Multiset J) := rfl
    rw [hold, hnew, zero_add] at hsum
    rw [hist.calls, ← hsum, ← Multiset.coe_add]
    abel
  early := hist.early
  closed := hist.closed
  drained j hj := hist.drained j (returned_update (fun h => by cases h) hj)

theorem History.shutdown (hist : History s l) :
    History { s with mem := { s.mem with shutdown := true }, early := s.early.or (some s.submitted) } l where
  order := hist.order
  calls := hist.calls
  early := by
    intro jobs hjobs
    rcases Option.or_eq_some_iff.mp hjobs with hearly | ⟨-, hnow⟩
    · exact hist.early jobs hearly
    · obtain rfl := Option.some.inj hnow
      exact List.prefix_rfl
  closed := by
    intro _
    cases s.early with
    | none => rfl
    | some jobs => rfl
  drained := by
    intro i hi
    obtain ⟨jobs, hjobs, hle⟩ := hist.drained i hi
    exact ⟨jobs, by rw [hjobs]; rfl, hle⟩

theorem History.step (hist : History s l) (own : Owned s.mem s.workers s.prepared l) (effect : Effect s l e t l') :
    History t l' := by
  cases effect with
  | @malloc w job fresh =>
    have hne : ∀ {a c}, s.mem.heap a = some c → a ≠ w := by
      rintro a c ha rfl
      cases fresh.symm.trans ha
    apply hist.setHeap
    · intro a ha
      obtain ⟨c, hc⟩ := own.queue.chain.allocated ha
      exact value_update_of_ne (hne hc) _
    · intro i a ha
      obtain ⟨-, -, c, hc⟩ := own.item i a ha
      exact value_update_of_ne (hne hc) _
  | submit mine value queue same values others => exact hist.submit value same values _
  | wait ready =>
    apply hist.setWorker _ rfl fun h => by cases h
    rw [ready]
    rfl
  | leave ready empty closed =>
    subst empty
    apply hist.setWorker _ rfl fun _ => hist.leave closed
    rw [ready]
    rfl
  | take ready first value queue heap same =>
    subst first
    exact hist.take ready value heap same
  | wake waiting =>
    apply hist.setWorker _ rfl fun h => by cases h
    rw [waiting]
    rfl
  | execute running value => exact hist.execute running value
  | @free i w done =>
    have held : (s.workers i).item = some w := by rw [done]; rfl
    obtain ⟨hl, -, -⟩ := own.item i w held
    have placed : History { s with workers := Function.update s.workers i .ready } l := by
      apply hist.setWorker _ rfl fun h => by cases h
      rw [done]
      rfl
    apply placed.setHeap
    · intro a ha
      exact value_update_of_ne (ne_of_mem_of_not_mem ha hl) _
    · intro j a ha
      rcases item_update ha with ⟨-, hx⟩ | ⟨hne, hj⟩
      · cases hx
      · apply value_update_of_ne
        rintro rfl
        exact hne (own.apart j i a hj held)
  | shutdown => exact hist.shutdown
  | destroy => exact ⟨hist.order, hist.calls, hist.early, hist.closed, hist.drained⟩

theorem init_owned : Owned (init : Pool J n).mem (init : Pool J n).workers (init : Pool J n).prepared [] where
  queue := PoolMem.init_queue
  alone w hw := by cases hw
  once := List.nodup_nil
  item i w h := by cases h
  apart i j w h := by cases h

theorem init_history : History (init : Pool J n) [] where
  order := rfl
  calls := by
    show (0 : Multiset J) = 0 + ∑ _i : Fin n, 0
    rw [Finset.sum_const_zero, add_zero]
  early jobs h := by cases h
  closed h := by cases h
  drained i h := by cases h

/-- The queue is a list in memory, apart from the other work items and with its history. -/
def Sound (s : Pool J n) : Prop := ∃ l, Owned s.mem s.workers s.prepared l ∧ History s l

theorem Reached.sound (reached : s.Reached) : s.Sound := by
  refine Machine.Steps.invariant reached ?_ ?_
  · exact ⟨[], init_owned, init_history⟩
  · rintro s t e ⟨l, own, hist⟩ taken can
    obtain ⟨t', l', hact, effect⟩ := own.effect can
    obtain rfl : t = t' := Option.some.inj (taken.symm.trans hact)
    exact ⟨l', own.step effect, hist.step own effect⟩

/-- Workers that have all left have called what they have taken. -/
theorem History.perm_of_returned (hist : History s l) (left : ∀ i, s.workers i = .returned) :
    s.executed.Perm s.dequeued := by
  have hcalls := hist.calls
  rw [Finset.sum_congr rfl fun i _ => congrArg (toCall s.mem.heap) (left i)] at hcalls
  have hnone : ∑ i : Fin n, toCall s.mem.heap .returned = (0 : Multiset J) := Finset.sum_const_zero
  rw [hnone, add_zero] at hcalls
  exact (Multiset.coe_eq_coe.mp hcalls).symm

theorem History.subperm (hist : History s l) : s.executed.Subperm s.dequeued := by
  rw [← Multiset.coe_le, hist.calls]
  exact Multiset.le_add_right ..

end Pool

/-- In every run of a pool with workers: nothing faults; the queue is a list from `head` to `tail` with `pending` nodes;
the jobs are taken in the order of their submission, none twice, and called no more often than taken; and when
all workers have returned, the jobs submitted before the shutdown are taken, and each taken job has been called. -/
theorem thread_pool_once (pos : 0 < n) (s : Pool J n) (reached : s.Reached) :
    (∀ e, s.enabled e = true → ∃ t, s.act e = some t) ∧
    (∃ l, (s.mem.heap.Chain s.mem.head l ∧ s.mem.tail = l.getLast?) ∧
      (s.mem.pending = Int32.ofNat l.length ∧ (l.length < 2 ^ 31 → s.mem.pending.toInt = l.length)) ∧
      s.dequeued ++ s.mem.heap.values l = s.submitted) ∧
    (s.submitted.Nodup → s.dequeued.Nodup) ∧ s.executed.Subperm s.dequeued ∧
    ((∀ i, s.workers i = .returned) →
      (∃ jobs, s.early = some jobs ∧ jobs <+: s.dequeued) ∧ s.executed.Perm s.dequeued) := by
  obtain ⟨l, own, hist⟩ := reached.sound
  refine ⟨?_, ⟨l, ⟨own.queue.chain, own.queue.last⟩, ⟨own.queue.count, ?_⟩, hist.order⟩, ?_, hist.subperm, ?_⟩
  · intro e can
    obtain ⟨t, -, hact, -⟩ := own.effect can
    exact ⟨t, hact⟩
  · intro fits
    rw [own.queue.count, Int32.toInt_ofNat_of_lt fits]
  · intro distinct
    rw [← hist.order] at distinct
    exact (List.nodup_append.mp distinct).1
  · intro left
    exact ⟨hist.drained ⟨0, pos⟩ (left ⟨0, pos⟩), hist.perm_of_returned left⟩

/-- Two workers and three jobs, of which the last is submitted after the shutdown in memory that the first had. -/
def threeJobs : List (PoolEvent Nat 2) :=
  [.turn 0, .malloc 0 7, .submit 0, .malloc 1 8, .submit 1, .shutdown, .wake 0, .turn 0, .turn 1, .execute 1, .execute 0,
    .free 0, .malloc 0 9, .submit 0, .free 1, .turn 1, .turn 0, .execute 1, .free 1, .turn 1]

theorem thread_pool_threeJobs :
    ∃ s : Pool Nat 2, s.Reached ∧ s.dequeued = [7, 8, 9] ∧ s.executed = [8, 7, 9] ∧
      (∃ jobs, s.early = some jobs ∧ jobs <+: s.dequeued) ∧ s.executed.Perm s.dequeued := by
  have hrun : ((Machine.exec Pool.act (fun s e _ => s.enabled e) Pool.init threeJobs).map fun s =>
      (s.dequeued, s.executed, decide (∀ i, s.workers i = .returned))) = some ([7, 8, 9], [8, 7, 9], true) := by
    decide +kernel
  obtain ⟨s, hexec, hs⟩ := Option.map_eq_some_iff.mp hrun
  obtain ⟨hdequeued, hexecuted, hleft⟩ : s.dequeued = [7, 8, 9] ∧ s.executed = [8, 7, 9] ∧ _ = true := by
    simpa only [Prod.mk.injEq] using hs
  have reached : s.Reached := .of_exec (fun s e _ => s.enabled e) threeJobs (fun _ can => can) hexec
  have once := thread_pool_once (by decide) s reached
  exact ⟨s, reached, hdequeued, hexecuted, once.2.2.2.2 (of_decide_eq_true hleft)⟩

end AegisTunnel
