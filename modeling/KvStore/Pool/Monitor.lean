import KvStore.Pool.ThreadPool

/-!
# The condition variable of the pool

`src/pool/thread_pool.cpp` once more, with `cv_` in it. In `KvStore.Pool.ThreadPool` a worker
takes a task when there is one. Here it has to wake up for that: a worker that finds nothing
goes to sleep, and gets up again when it is notified, or for no reason at all.

A task is pushed under the mutex, and the notification comes after the mutex was released.
So there are moments at which a task is in the queue, everybody sleeps, and somebody is
about to notify one of them; meanwhile other tasks are pushed, and other workers come and go.
-/

namespace KvStore.Pool

open Lib

/-- Where a worker is, besides what it has in its hands. -/
inductive Place where
  | awake
  /-- In `cv_.wait`, and not notified. -/
  | asleep
  /-- Behind the push of a task that has yielded, in front of `cv_.notify_one`. -/
  | notifying
  deriving DecidableEq, Repr

/-- A pool with its mutex, and who sleeps on its condition variable. -/
structure Monitor (n : Nat) where
  pool : ThreadPool n
  place : Fin n → Place := fun _ => .awake
  /-- Calls of `submit` that have pushed, and not yet notified. -/
  owed : Nat := 0
  /-- `shutdown` has set the flag, and not yet notified all. -/
  announcing : Bool := false

namespace Monitor

variable {n : Nat}

/-- What happens next at the mutex. -/
inductive Act (n : Nat) where
  /-- `submit` up to the notification, and what it is going to answer. -/
  | submit (yields : Nat) (throws : Bool) (priority : TaskPriority) (answer : Bool)
  /-- The notification of a `submit`, and who is woken up by it. -/
  | notify (woken : Option (Fin n))
  /-- `shutdown` up to the notification. -/
  | shutdown
  | notifyAll
  | join
  /-- The section of `workerLoop` under the mutex, up to the wait or past it. -/
  | enter (t : Fin n)
  | run (t : Fin n)
  | requeue (t : Fin n)
  /-- The notification of a worker, and who is woken up by it. -/
  | notifyBack (t : Fin n) (woken : Option (Fin n))
  /-- A worker wakes up without having been notified. -/
  | spurious (t : Fin n)
  deriving DecidableEq, Repr

/-- `cv_.notify_one`: one of those who sleep, or nobody if nobody does. -/
def Wakes (place : Fin n → Place) : Option (Fin n) → Prop
  | some t => place t = .asleep
  | none => ∀ t, place t ≠ .asleep

instance (place : Fin n → Place) : (woken : Option (Fin n)) → Decidable (Wakes place woken)
  | some t => inferInstanceAs (Decidable (place t = .asleep))
  | none => inferInstanceAs (Decidable (∀ t, place t ≠ .asleep))

/-- Somebody is woken up, or nobody. -/
def wake (place : Fin n → Place) : Option (Fin n) → Fin n → Place
  | some t => Function.update place t .awake
  | none => place

/-- A section under the mutex, a notification, or a task. -/
def step (m : Monitor n) : Act n → Option (Monitor n)
  | .submit yields throws priority answer =>
      (m.pool.step (.submit yields throws priority answer)).map fun p =>
        { m with pool := p, owed := if answer then m.owed + 1 else m.owed }
  | .notify woken =>
      if 0 < m.owed ∧ Wakes m.place woken then
        some { m with owed := m.owed - 1, place := wake m.place woken }
      else none
  | .shutdown =>
      (m.pool.step .shutdown).map fun p =>
        -- who comes second returns at once
        { m with pool := p, announcing := if m.pool.stopping then m.announcing else true }
  | .notifyAll =>
      if m.announcing then
        some
          { m with
            announcing := false
            place := fun t => if m.place t = .asleep then .awake else m.place t }
      else none
  | .join => if m.announcing then none else (m.pool.step .join).map fun p => { m with pool := p }
  | .enter t =>
      if m.place t = .awake ∧ m.pool.workers t = .idle then
        if m.pool.stopping ∨ m.pool.queue.empty = false then
          (m.pool.step (.take t)).map fun p => { m with pool := p }
        else some { m with place := Function.update m.place t .asleep }
      else none
  | .run t => (m.pool.step (.run t)).map fun p => { m with pool := p }
  | .requeue t =>
      (m.pool.step (.requeue t)).map fun p =>
        { m with pool := p, place := Function.update m.place t .notifying }
  | .notifyBack t woken =>
      if m.place t = .notifying ∧ Wakes m.place woken then
        some { m with place := Function.update (wake m.place woken) t .awake }
      else none
  | .spurious t =>
      if m.place t = .asleep then some { m with place := Function.update m.place t .awake }
      else none

/-- A pool from its construction on. -/
def system (n : Nat) (policy : SchedulingPolicy) (aging : Bool) (agingThreshold : Nat) :
    System (Monitor n) (Act n) where
  init m := m = { pool := { queue := makeTaskQueue policy aging agingThreshold } }
  step := step

end Monitor

end KvStore.Pool
