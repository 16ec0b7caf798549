import AegisTunnel.Lib.Chain
import AegisTunnel.Lib.Machine

/-! # The thread pool (`tunnel/threadpool.c`)

The queue lies in memory as a linked list of work items. A section between locking and unlocking the mutex is
one step; the calls of `threadpool_submit`, the workers and `threadpool_shutdown` take their steps in any
order. An access to memory that is not allocated has no result. -/

namespace AegisTunnel
open Linked

/-- `threadpool_t` and the work items. A job is a function with its argument; `pending` is an `int` that wraps
around. -/
structure PoolMem (J : Type) where
  heap : Heap Nat J
  head : Option Nat
  tail : Option Nat
  pending : Int32
  shutdown : Bool

/-- What a worker does after it has locked the mutex. -/
inductive Turn where
  | wait
  | leave
  | take (w : Nat)

namespace PoolMem
variable {J : Type}

def init : PoolMem J := ⟨fun _ => none, none, none, 0, false⟩

/-- The locked section of `threadpool_submit`, for the work item `w`. -/
def submit (tp : PoolMem J) (w : Nat) : Option (PoolMem J) :=
  match tp.tail with
  | some t => (tp.heap t).map fun last =>
    { tp with heap := tp.heap.link t last (some w), tail := some w, pending := tp.pending + 1 }
  | none => some { tp with head := some w, tail := some w, pending := tp.pending + 1 }

/-- The locked section of `worker_loop`. -/
def turn (tp : PoolMem J) : Option (Turn × PoolMem J) :=
  match tp.head with
  | none => some (if tp.shutdown then .leave else .wait, tp)
  | some w =>
    if tp.tail = some w then some (.take w, { tp with head := none, tail := none, pending := tp.pending - 1 })
    else (tp.heap w).map fun first => (.take w, { tp with head := first.next, pending := tp.pending - 1 })

end PoolMem

/-- Where a worker is: before its locked section, in `pthread_cond_wait`, before the call of its job, before
`free`, or at its end. -/
inductive Worker where
  | ready
  | waiting
  | running (w : Nat)
  | done (w : Nat)
  | returned
  deriving DecidableEq

/-- The work item of a worker. -/
def Worker.item : Worker → Option Nat
  | .running w | .done w => some w
  | _ => none

def Worker.isRunning : Worker → Bool
  | .running _ => true
  | _ => false

def Worker.isDone : Worker → Bool
  | .done _ => true
  | _ => false

/-- A pool with `n` workers; `prepared` are the work items of the calls of `threadpool_submit` that have not
locked the mutex yet. The other fields are for the history: the jobs in the order in which they are submitted,
taken and called, and those submitted when `shutdown` was set. -/
structure Pool (J : Type) (n : Nat) where
  mem : PoolMem J
  workers : Fin n → Worker
  prepared : List Nat
  freed : Bool
  submitted : List J
  dequeued : List J
  executed : List J
  early : Option (List J)

inductive PoolEvent (J : Type) (n : Nat) where
  | malloc (w : Nat) (job : J)
  | submit (w : Nat)
  | turn (i : Fin n)
  | wake (i : Fin n)
  | execute (i : Fin n)
  | free (i : Fin n)
  | shutdown
  | destroy

/-- The steps of `worker_loop` itself. -/
def PoolEvent.ofWorker {J : Type} {n : Nat} : PoolEvent J n → Bool
  | .turn _ | .execute _ | .free _ => true
  | _ => false

namespace Pool
variable {J : Type} {n : Nat}

/-- `threadpool_create`. -/
def init : Pool J n := ⟨.init, fun _ => .ready, [], false, [], [], [], none⟩

/-- What can happen. `malloc` gives memory that is not allocated; a worker may wake up without a signal; the
pool is not used any more once `threadpool_shutdown` has freed it. -/
def enabled (s : Pool J n) : PoolEvent J n → Bool
  | .malloc w _ => (s.mem.heap w).isNone
  | .submit w => !s.freed && s.prepared.contains w
  | .turn i => s.workers i == .ready
  | .wake i => s.workers i == .waiting
  | .execute i => (s.workers i).isRunning
  | .free i => (s.workers i).isDone
  | .shutdown => !s.freed
  | .destroy => s.mem.shutdown && decide (∀ i, s.workers i = .returned)

def act (s : Pool J n) : PoolEvent J n → Option (Pool J n)
  | .malloc w job => some
    { s with mem := { s.mem with heap := Function.update s.mem.heap w (some ⟨job, none⟩) }, prepared := w :: s.prepared }
  | .submit w => (s.mem.submit w).map fun mem =>
    { s with mem := mem, prepared := s.prepared.erase w, submitted := s.submitted ++ (s.mem.heap.value w).toList }
  | .turn i => s.mem.turn.map fun r =>
    match r.1 with
    | .wait => { s with workers := Function.update s.workers i .waiting }
    | .leave => { s with workers := Function.update s.workers i .returned }
    | .take w =>
      { s with
        mem := r.2
        workers := Function.update s.workers i (.running w)
        dequeued := s.dequeued ++ (s.mem.heap.value w).toList }
  | .wake i => some { s with workers := Function.update s.workers i .ready }
  | .execute i => do
    let w ← (s.workers i).item
    let work ← s.mem.heap w
    some { s with workers := Function.update s.workers i (.done w), executed := s.executed ++ [work.value] }
  | .free i => do
    let w ← (s.workers i).item
    let _ ← s.mem.heap w
    some
      { s with
        mem := { s.mem with heap := Function.update s.mem.heap w none }
        workers := Function.update s.workers i .ready }
  | .shutdown => some { s with mem := { s.mem with shutdown := true }, early := s.early.or (some s.submitted) }
  | .destroy => some { s with freed := true }

/-- The states of the runs of a pool. -/
def Reached (s : Pool J n) : Prop := Machine.Steps act (fun s e _ => s.enabled e = true) init s

/-! ### The condition variable

A worker that waits is woken by `pthread_cond_signal` in `threadpool_submit` or `pthread_cond_broadcast` in
`threadpool_shutdown`, and it may still wake up without either. -/

/-- Whom `pthread_cond_signal` can wake: one of the workers that wait, if there is one. -/
def signals (s : Pool J n) : Option (Fin n) → Bool
  | some i => s.workers i == .waiting
  | none => decide (∀ i, s.workers i ≠ .waiting)

def signal (s : Pool J n) : Option (Fin n) → Pool J n
  | some i => { s with workers := Function.update s.workers i .ready }
  | none => s

def broadcast (s : Pool J n) : Pool J n :=
  { s with workers := fun i => if s.workers i = .waiting then .ready else s.workers i }

/-- An event comes with the worker that it signals. -/
def condEnabled (s : Pool J n) (ev : PoolEvent J n × Option (Fin n)) : Bool :=
  s.enabled ev.1 && match ev.1 with
    | .submit _ => s.signals ev.2
    | _ => ev.2.isNone

/-- The workers that the event wakes up. -/
def notify (s : Pool J n) (ev : PoolEvent J n × Option (Fin n)) : Pool J n :=
  match ev.1 with
  | .submit _ => s.signal ev.2
  | .shutdown => s.broadcast
  | _ => s

def condAct (s : Pool J n) (ev : PoolEvent J n × Option (Fin n)) : Option (Pool J n) :=
  (s.act ev.1).map (·.notify ev)

/-- The states of the runs of a pool with its condition variable. -/
def CondReached (s : Pool J n) : Prop := Machine.Steps condAct (fun s ev _ => s.condEnabled ev = true) init s

end Pool
end AegisTunnel
