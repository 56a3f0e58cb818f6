import Vs17.Library.Runs
import Vs17.Library.Population
import Mathlib.Logic.Function.Basic

/-! # The thread pool

Every member of `ThreadPool` works under `queue_mutex`, so what a thread does between
taking the mutex and giving it back, or between two waits, is one step. Only `in_flight`
changes outside of it, in an atomic operation of its own. Assertions, accesses to `workers`
and `detach` can fail, and a step that fails has no result.
-/

namespace Vs17.Pool

open Runs Population

/-- A task, named by the number of the call of `enqueue` that makes it. -/
abbrev Task := ℕ

inductive WorkerPc
  | awake -- at the head of the loop, or notified in the wait: the mutex is to be taken
  | waiting -- blocked in `condition_consumers.wait`
  | popped (task : Task) (notify : Bool) -- the mutex is given back
  | running (task : Task)
  | ran -- the task has returned, `guard` is about to be destroyed
  | last -- the guard has brought `in_flight` to zero
  | exited
  deriving DecidableEq, Repr

/-- A thread that runs `worker_func`. -/
structure Worker where
  number : ℕ
  pc : WorkerPc
  deriving DecidableEq, Repr

/-- The member functions that may block. -/
inductive Call
  | enqueue
  | waitUntilEmpty
  | waitUntilNothingInFlight
  deriving DecidableEq, Repr

/-- The condition variables that calls block in. -/
inductive Condition
  | producers
  | inFlight
  deriving DecidableEq, Repr

def Call.condition : Call → Condition
  | .enqueue | .waitUntilEmpty => .producers
  | .waitUntilNothingInFlight => .inFlight

inductive CallPc
  | idle
  | blocked (call : Call)
  | woken (call : Call)
  | returned (call : Call)
  | threw
  deriving DecidableEq, Repr

inductive DtorPc
  | before
  | waiting -- blocked in `condition_consumers.wait`
  | woken
  | returned
  deriving DecidableEq, Repr

/-- A pool, the threads it has started, and the calls of its members. A joinable element of
`workers` holds the index of its thread in `threads`. The last three fields are history: the
tasks in the order in which they were emplaced, popped and finished. -/
structure State where
  workers : List (Option ℕ)
  poolSize : ℕ
  tasks : List Task
  maxQueueSize : ℕ
  stop : Bool
  inFlight : ℕ
  threads : List Worker
  call : ℕ → CallPc
  dtor : DtorPc
  submitted : List Task
  taken : List Task
  finished : List Task

/-- What waits for `condition_consumers`. -/
inductive Consumer
  | worker (t : ℕ)
  | dtor
  deriving DecidableEq, Repr

def Worker.wake (w : Worker) : Worker :=
  if w.pc = .waiting then { w with pc := .awake } else w

def DtorPc.wake (pc : DtorPc) : DtorPc := if pc = .waiting then .woken else pc

def CallPc.wake (c : Condition) (pc : CallPc) : CallPc :=
  match pc with
  | .blocked call => if call.condition = c then .woken call else pc
  | _ => pc

namespace State

/-- `condition_consumers.notify_all()` -/
def notifyConsumers (s : State) : State :=
  { s with threads := s.threads.map Worker.wake, dtor := s.dtor.wake }

/-- `notify_all()` on one of the other condition variables -/
def notifyAll (s : State) (c : Condition) : State :=
  { s with call := fun i => (s.call i).wake c }

/-- The consumer is blocked in its wait. -/
def Waiting (s : State) : Consumer → Prop
  | .worker t =>
    match s.threads[t]? with
    | some w => w.pc = .waiting
    | none => False
  | .dtor => s.dtor = .waiting

def wake (s : State) : Consumer → State
  | .worker t => { s with threads := s.threads.modify t Worker.wake }
  | .dtor => { s with dtor := s.dtor.wake }

/-- `condition_consumers.notify_one()`, which reaches one of the blocked consumers. -/
def notifyOne (s : State) : Option Consumer → State
  | some c => s.wake c
  | none => s

def setCall (s : State) (i : ℕ) (pc : CallPc) : State :=
  { s with call := Function.update s.call i pc }

def setPc (s : State) (t : ℕ) (w : Worker) (pc : WorkerPc) : State :=
  { s with threads := s.threads.set t { w with pc := pc } }

/-- The predicates that the members wait for. -/
def Ready (s : State) : Call → Prop
  | .enqueue => s.tasks.length < s.maxQueueSize ∨ s.stop = true
  | .waitUntilEmpty => s.tasks = []
  | .waitUntilNothingInFlight => s.inFlight = 0

instance (s : State) : DecidablePred s.Ready
  | .enqueue => inferInstanceAs (Decidable (_ ∨ _))
  | .waitUntilEmpty => inferInstanceAs (Decidable (_ = _))
  | .waitUntilNothingInFlight => inferInstanceAs (Decidable (_ = _))

def emplace (s : State) (i : ℕ) : State :=
  { s.setCall i (.returned .enqueue) with
    tasks := s.tasks ++ [i]
    inFlight := s.inFlight + 1
    submitted := s.submitted ++ [i] }

/-- What a call does behind its wait. -/
def proceed (s : State) (i : ℕ) (wake : Option Consumer) : Call → State
  | .enqueue => if s.stop then s.setCall i .threw else (s.emplace i).notifyOne wake
  | call => s.setCall i (.returned call)

/-- `wait(lock, predicate)`, and the rest of the call once the predicate holds. -/
def wait (s : State) (i : ℕ) (wake : Option Consumer) (call : Call) : State :=
  if s.Ready call then s.proceed i wake call else s.setCall i (.blocked call)

/-- A call from its beginning. -/
def enter (s : State) (i : ℕ) (wake : Option Consumer) : Call → State
  | .enqueue =>
    if s.maxQueueSize ≤ s.tasks.length then s.wait i wake .enqueue
    else s.proceed i wake .enqueue
  | call => s.wait i wake call

def setQueueSizeLimit (s : State) (limit : ℕ) : State :=
  if s.stop then s
  else if s.maxQueueSize < max limit 1 then
    { s with maxQueueSize := max limit 1 }.notifyAll .producers
  else { s with maxQueueSize := max limit 1 }

/-- `start_worker` with its assertion. A thread is started unless one is still running, and the
system does not refuse one. -/
def startWorker (s : State) (number : ℕ) : Option State :=
  if s.workers.length < number then none
  else
    match s.workers[number]? with
    | some (some _) => some s
    | some none =>
      some { s with
        workers := s.workers.set number (some s.threads.length)
        threads := s.threads ++ [⟨number, .awake⟩] }
    | none =>
      some { s with
        workers := s.workers ++ [some s.threads.length]
        threads := s.threads ++ [⟨number, .awake⟩] }

/-- The loop that starts so many workers, from this number on. -/
def startWorkers (s : State) (number : ℕ) : ℕ → Option State
  | 0 => some s
  | count + 1 => (s.startWorker number).bind fun t => t.startWorkers (number + 1) count

/-- `set_pool_size` with its assertion. -/
def setPoolSize (s : State) (limit : ℕ) : Option State :=
  if s.stop then some s
  else if s.workers.length < s.poolSize then none
  else if s.poolSize < max limit 1 then
    { s with poolSize := max limit 1 }.startWorkers s.poolSize (max limit 1 - s.poolSize)
  else if max limit 1 < s.poolSize then
    some { s with poolSize := max limit 1 }.notifyConsumers
  else some s

/-- `while (workers.size() > pool_size && !workers.back().joinable()) workers.pop_back();`
where the vector has so many elements more than `pool_size`. -/
def downsize (workers : List (Option ℕ)) : ℕ → List (Option ℕ)
  | 0 => workers
  | extra + 1 =>
    if workers.getLast? = some none then downsize workers.dropLast extra else workers

/-- A worker stops: it detaches the thread under its number. -/
def leave (s : State) (t : ℕ) (w : Worker) : Option State :=
  match s.workers[w.number]? with
  | some (some _) =>
    let workers := downsize (s.workers.set w.number none) (s.workers.length - s.poolSize)
    let s' := { s.setPc t w .exited with workers := workers }
    some (if workers = [] then s'.notifyConsumers else s')
  | _ => none

/-- The next step of a worker. The task that it runs returns by itself: it waits for nothing that
only the pool's going on would bring, such as room for a task of its own. -/
def work (s : State) (t : ℕ) (w : Worker) : Option State :=
  match w.pc with
  | .awake =>
    if ¬ (s.stop = true ∨ s.tasks ≠ [] ∨ s.poolSize < w.number + 1) then
      some (s.setPc t w .waiting)
    else if (s.stop = true ∧ s.tasks = []) ∨ (s.stop = false ∧ s.poolSize < w.number + 1) then
      s.leave t w
    else
      match s.tasks with
      | task :: tasks =>
        let notify := decide (tasks.length + 1 = s.maxQueueSize ∨ tasks = [])
        some { s.setPc t w (.popped task notify) with
          tasks := tasks
          taken := s.taken ++ [task] }
      | [] => some s -- `continue`
  | .popped task notify =>
    some ((if notify then s.notifyAll .producers else s).setPc t w (.running task))
  | .running task => some { s.setPc t w .ran with finished := s.finished ++ [task] }
  | .ran =>
    let s' := s.setPc t w (if s.inFlight = 1 then .last else .awake)
    some { s' with inFlight := s.inFlight - 1 }
  | .last => some ((s.notifyAll .inFlight).setPc t w .awake)
  | .waiting | .exited => some s

/-- The destructor's wait, and its assertion once there are no workers. -/
def join (s : State) : Option State :=
  if s.workers = [] then
    if s.inFlight = 0 then some { s with dtor := .returned } else none
  else some { s with dtor := .waiting }

def destroy (s : State) : Option State :=
  ({ s with stop := true, poolSize := 0 }.notifyConsumers.notifyAll .producers).join

end State

/-- The constructor. -/
def create (threads : ℕ) : Option State :=
  State.startWorkers ⟨[], threads, [], 100000, false, 0, [], fun _ => .idle, .before, [], [], []⟩
    0 threads

inductive Event
  | enter (i : ℕ) (call : Call) (wake : Option Consumer)
  | resume (i : ℕ) (wake : Option Consumer)
  | setQueueSizeLimit (limit : ℕ)
  | setPoolSize (limit : ℕ)
  | destroy
  | join -- the destructor has been notified
  | worker (t : ℕ)
  | wakeConsumer (c : Consumer) -- spurious
  | wakeCall (i : ℕ) -- spurious
  deriving DecidableEq, Repr

namespace State

/-- `notify_one` wakes one of the consumers that are blocked, if there are any. -/
def Chosen (s : State) : Option Consumer → Prop
  | some c => s.Waiting c
  | none => (∀ w ∈ s.threads, w.pc ≠ .waiting) ∧ s.dtor ≠ .waiting

/-- The pool is not used any more once its destructor has returned. -/
def Pending (s : State) : Event → Prop
  | .enter i _ wake => s.call i = .idle ∧ s.dtor ≠ .returned ∧ s.Chosen wake
  | .resume i wake =>
    match s.call i with
    | .woken _ => s.dtor ≠ .returned ∧ s.Chosen wake
    | _ => False
  | .setQueueSizeLimit _ | .setPoolSize _ => s.dtor ≠ .returned
  | .destroy => s.dtor = .before
  | .join => s.dtor = .woken
  | .worker t =>
    match s.threads[t]? with
    | some w => w.pc ≠ .waiting ∧ w.pc ≠ .exited
    | none => False
  | .wakeConsumer c => s.Waiting c
  | .wakeCall i =>
    match s.call i with
    | .blocked _ => s.dtor ≠ .returned
    | _ => False

/-- What an event makes of the pool, unless something in it fails. -/
def handle (s : State) : Event → Option State
  | .enter i call wake => some (s.enter i wake call)
  | .resume i wake =>
    match s.call i with
    | .woken call => some (s.wait i wake call)
    | _ => some s
  | .setQueueSizeLimit limit => some (s.setQueueSizeLimit limit)
  | .setPoolSize limit => s.setPoolSize limit
  | .destroy => s.destroy
  | .join => s.join
  | .worker t =>
    match s.threads[t]? with
    | some w => s.work t w
    | none => some s
  | .wakeConsumer c => some (s.wake c)
  | .wakeCall i =>
    match s.call i with
    | .blocked call => some (s.setCall i (.woken call))
    | _ => some s

def Step (s : State) (e : Event) (t : State) : Prop := s.Pending e ∧ s.handle e = some t

end State

end Vs17.Pool
