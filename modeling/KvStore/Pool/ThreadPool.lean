import KvStore.Lib.Runs
import KvStore.Pool.TaskQueue
import Mathlib.Data.Multiset.Basic

/-!
# The thread pool

`src/pool/thread_pool.cpp`. A step is a section under the mutex, or what a worker
does with a task in its hands, outside of it. The wait on the condition variable is
the guard of `take`: a worker is inside it as long as the guard does not hold.

What a task does is decided by the task: it returns `false` a number of times, and
then returns `true` or throws, which the pool cannot tell apart.
-/

namespace KvStore.Pool

open Lib

/-- A task by what it does: it yields so many times, and then returns or throws. -/
structure TaskFn where
  /-- Ghost: which of the accepted tasks it is. -/
  id : Nat
  /-- How many more times it returns `false`. -/
  yields : Nat := 0
  /-- It ends by throwing. -/
  throws : Bool := false
  deriving DecidableEq, Repr

/-- The task after it has returned `false`; `none` when it has returned `true`, or thrown. -/
def TaskFn.call (fn : TaskFn) : Option TaskFn :=
  if fn.yields = 0 then none else some { fn with yields := fn.yields - 1 }

/-- Where a worker is in its loop. -/
inductive Worker where
  /-- In front of the mutex, or in the wait. -/
  | idle
  | running (task : Task TaskFn)
  /-- The task has returned `false`, and is to go back into the queue. -/
  | yielded (task : Task TaskFn)
  /-- `workerLoop` has returned. -/
  | exited
  deriving DecidableEq, Repr

/-- A pool of `n` workers. -/
structure ThreadPool (n : Nat) where
  queue : TaskQueue TaskFn
  stopping : Bool := false
  workers : Fin n → Worker := fun _ => .idle
  tasksExecuted : Nat := 0
  taskYields : Nat := 0
  /-- Ghost: how many tasks `submit` has accepted; they are numbered from zero. -/
  accepted : Nat := 0
  /-- Ghost: the tasks that have returned `true` or thrown, one entry for each time. -/
  finished : List Nat := []

namespace ThreadPool

/-- What happens next to the pool. -/
inductive Act (n : Nat) where
  /-- A task that is to be called so often, and the answer of `submit`. -/
  | submit (yields : Nat) (throws : Bool) (priority : TaskPriority) (answer : Bool)
  /-- `shutdown`, up to the join. -/
  | shutdown
  /-- `shutdown` has joined every worker. -/
  | join
  | take (t : Fin n)
  | run (t : Fin n)
  | requeue (t : Fin n)
  deriving DecidableEq, Repr

variable {n : Nat}

/-- `submit`: the pool afterwards, and what it returns. -/
def submit (p : ThreadPool n) (yields : Nat) (throws : Bool) (priority : TaskPriority) :
    ThreadPool n × Bool :=
  if p.stopping then (p, false)
  else
    let fn := { id := p.accepted, yields := yields, throws := throws }
    ({ p with
        queue := p.queue.push { run := fn, priority := priority }
        accepted := p.accepted + 1 },
      true)

/-- The section of `workerLoop` under the mutex, once the wait is over. -/
def take (p : ThreadPool n) (t : Fin n) : ThreadPool n :=
  if p.stopping ∧ p.queue.empty then { p with workers := Function.update p.workers t .exited }
  else
    match p.queue.pop with
    | none => p
    | some (task, queue) =>
        { p with queue := queue, workers := Function.update p.workers t (.running task) }

/-- `task.run()`, and the counters behind it. -/
def run (p : ThreadPool n) (t : Fin n) (task : Task TaskFn) : ThreadPool n :=
  match task.run.call with
  | none =>
      { p with
        workers := Function.update p.workers t .idle
        tasksExecuted := p.tasksExecuted + 1
        finished := p.finished ++ [task.run.id] }
  | some fn =>
      { p with
        workers := Function.update p.workers t (.yielded { task with run := fn })
        tasksExecuted := p.tasksExecuted + 1
        taskYields := p.taskYields + 1 }

/-- A task that has yielded is put back. -/
def requeue (p : ThreadPool n) (t : Fin n) (task : Task TaskFn) : ThreadPool n :=
  { p with queue := p.queue.push task, workers := Function.update p.workers t .idle }

/-- A call of `submit` or `shutdown`, or a step of a worker. -/
def step (p : ThreadPool n) : Act n → Option (ThreadPool n)
  | .submit yields throws priority answer =>
      let r := p.submit yields throws priority
      if r.2 = answer then some r.1 else none
  | .shutdown => some { p with stopping := true }
  | .join => if p.stopping ∧ ∀ t, p.workers t = .exited then some p else none
  | .take t =>
      if p.workers t = .idle ∧ (p.stopping ∨ p.queue.empty = false) then some (p.take t) else none
  | .run t =>
      match p.workers t with
      | .running task => some (p.run t task)
      | _ => none
  | .requeue t =>
      match p.workers t with
      | .yielded task => some (p.requeue t task)
      | _ => none

/-- The constructor, and everything that can happen to the pool after it. -/
def system (n : Nat) (policy : SchedulingPolicy) (aging : Bool) (agingThreshold : Nat) :
    System (ThreadPool n) (Act n) where
  init p := p = { queue := makeTaskQueue policy aging agingThreshold }
  step := step

end ThreadPool

end KvStore.Pool
