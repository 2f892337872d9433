import KvStore.Lib.Sums
import Mathlib.Data.Multiset.Basic

/-!
# Task queues

`src/pool/task_queue.cpp` and the three queues behind it. A queue is a bag: what is
pushed comes out once. Which task comes out next is what the policies differ in, and
the thread pool does not depend on it, so what it relies on is stated for a queue as
such, as a multiset.

A task is generic in what there is to run.
-/

namespace KvStore.Pool

open Lib

variable {φ : Type}

/-- `TaskPriority`. -/
inductive TaskPriority where
  | high
  | normal
  | low
  deriving DecidableEq, Repr

/-- How many priorities there are. -/
abbrev kPriorityLevels : Nat := 3

/-- `static_cast<std::size_t>(priority)`. -/
def TaskPriority.level : TaskPriority → Fin kPriorityLevels
  | .high => 0
  | .normal => 1
  | .low => 2

/-- What there is to run, and what the queues know about it. -/
structure Task (φ : Type) where
  run : φ
  priority : TaskPriority := .normal
  sequence : Nat := 0
  deriving DecidableEq, Repr

/-! ## First come, first served -/

/-- First come, first served. -/
structure FcfsQueue (φ : Type) where
  tasks : List (Task φ) := []
  nextSequence : Nat := 0
  deriving DecidableEq, Repr

namespace FcfsQueue

/-- `FcfsQueue::push`. -/
def push (q : FcfsQueue φ) (task : Task φ) : FcfsQueue φ :=
  { tasks := q.tasks ++ [{ task with sequence := q.nextSequence }]
    nextSequence := q.nextSequence + 1 }

/-- `FcfsQueue::pop`. -/
def pop (q : FcfsQueue φ) : Option (Task φ × FcfsQueue φ) :=
  match q.tasks with
  | [] => none
  | task :: tasks => some (task, { q with tasks := tasks })

/-- `FcfsQueue::empty`. -/
def empty (q : FcfsQueue φ) : Bool := q.tasks.isEmpty

end FcfsQueue

/-! ## By priority -/

/-- `count` is kept beside the levels, and agrees with them. -/
structure PriorityQueue (φ : Type) where
  levels : Fin kPriorityLevels → List (Task φ) := fun _ => []
  aging : Bool
  agingThreshold : Nat
  count : Nat := 0
  nextSequence : Nat := 0
  served : Nat := 0
  promotions : Nat := 0
  servesSincePromotion : Nat := 0
  counted : count = ∑ level, (levels level).length := by simp

namespace PriorityQueue

/-- The constructor. -/
def init (aging : Bool) (agingThreshold : Nat) : PriorityQueue φ :=
  { aging := aging, agingThreshold := if agingThreshold = 0 then 1 else agingThreshold }

theorem length_update (levels : Fin kPriorityLevels → List (Task φ)) (level : Fin kPriorityLevels)
    (tasks : List (Task φ)) :
    ∑ l, (Function.update levels level tasks l).length + (levels level).length
      = ∑ l, (levels l).length + tasks.length :=
  sum_weight_update List.length levels level tasks

/-- `PriorityQueue::push`. -/
def push (q : PriorityQueue φ) (task : Task φ) : PriorityQueue φ :=
  let level := task.priority.level
  { q with
    levels := Function.update q.levels level
      (q.levels level ++ [{ task with sequence := q.nextSequence + 1 }])
    count := q.count + 1
    nextSequence := q.nextSequence + 1
    counted := by
      have hsum := length_update q.levels level
        (q.levels level ++ [{ task with sequence := q.nextSequence + 1 }])
      rw [List.length_append, List.length_singleton] at hsum
      rw [q.counted]
      omega }

/-- The front of one level, and the queue without it. -/
def takeFrom (q : PriorityQueue φ) (level : Fin kPriorityLevels) :
    Option (Task φ × PriorityQueue φ) :=
  match h : q.levels level with
  | [] => none
  | task :: tasks =>
      some (task, { q with
        levels := Function.update q.levels level tasks
        count := q.count - 1
        served := q.served + 1
        counted := by
          have hsum := length_update q.levels level tasks
          rw [h, List.length_cons] at hsum
          rw [q.counted]
          omega })

/-- The loop over the levels: the first that is not empty gives its front. -/
def takeFirst (q : PriorityQueue φ) : List (Fin kPriorityLevels) → Option (Task φ × PriorityQueue φ)
  | [] => none
  | level :: levels =>
      match q.takeFrom level with
      | some r => some r
      | none => q.takeFirst levels

/-- The task served in turn, from the highest level down. -/
def serve (q : PriorityQueue φ) : Option (Task φ × PriorityQueue φ) :=
  (q.takeFirst [0, 1, 2]).map fun r =>
    (r.1, { r.2 with servesSincePromotion := q.servesSincePromotion + 1 })

/-- With aging, once in a while the lowest level goes first. -/
def pop (q : PriorityQueue φ) : Option (Task φ × PriorityQueue φ) :=
  if q.count = 0 then none
  else if q.aging ∧ q.agingThreshold ≤ q.servesSincePromotion then
    match q.takeFirst [2, 1] with
    | some (task, q') =>
        some (task, { q' with promotions := q.promotions + 1, servesSincePromotion := 0 })
    | none => q.serve
  else q.serve

/-- `PriorityQueue::empty`. -/
def empty (q : PriorityQueue φ) : Bool := decide (q.count = 0)

/-- `PriorityQueue::size`. -/
def size (q : PriorityQueue φ) : Nat := q.count

end PriorityQueue

/-! ## Round robin -/

/-- One queue, in which a task that has yielded goes to the end. -/
structure RoundRobinQueue (φ : Type) where
  tasks : List (Task φ) := []
  nextSequence : Nat := 0
  requeues : Nat := 0
  deriving DecidableEq, Repr

namespace RoundRobinQueue

/-- A task that has a sequence number has been here before. -/
def push (q : RoundRobinQueue φ) (task : Task φ) : RoundRobinQueue φ :=
  { tasks := q.tasks ++ [{ task with sequence := q.nextSequence + 1 }]
    nextSequence := q.nextSequence + 1
    requeues := if task.sequence ≠ 0 then q.requeues + 1 else q.requeues }

/-- `RoundRobinQueue::pop`. -/
def pop (q : RoundRobinQueue φ) : Option (Task φ × RoundRobinQueue φ) :=
  match q.tasks with
  | [] => none
  | task :: tasks => some (task, { q with tasks := tasks })

/-- `RoundRobinQueue::empty`. -/
def empty (q : RoundRobinQueue φ) : Bool := q.tasks.isEmpty

end RoundRobinQueue

/-! ## Any queue -/

/-- `SchedulingPolicy`. -/
inductive SchedulingPolicy where
  | fcfs
  | priority
  | roundRobin
  deriving DecidableEq, Repr

/-- A queue of any of the three policies. -/
inductive TaskQueue (φ : Type) where
  | fcfs (q : FcfsQueue φ)
  | priority (q : PriorityQueue φ)
  | roundRobin (q : RoundRobinQueue φ)

/-- `makeTaskQueue`. -/
def makeTaskQueue (policy : SchedulingPolicy) (aging : Bool) (agingThreshold : Nat) : TaskQueue φ :=
  match policy with
  | .priority => .priority (.init aging agingThreshold)
  | .roundRobin => .roundRobin {}
  | .fcfs => .fcfs {}

namespace TaskQueue

/-- `TaskQueue::push`. -/
def push (q : TaskQueue φ) (task : Task φ) : TaskQueue φ :=
  match q with
  | .fcfs q => .fcfs (q.push task)
  | .priority q => .priority (q.push task)
  | .roundRobin q => .roundRobin (q.push task)

/-- `TaskQueue::pop`. -/
def pop (q : TaskQueue φ) : Option (Task φ × TaskQueue φ) :=
  match q with
  | .fcfs q => q.pop.map fun r => (r.1, .fcfs r.2)
  | .priority q => q.pop.map fun r => (r.1, .priority r.2)
  | .roundRobin q => q.pop.map fun r => (r.1, .roundRobin r.2)

/-- `TaskQueue::empty`. -/
def empty (q : TaskQueue φ) : Bool :=
  match q with
  | .fcfs q => q.empty
  | .priority q => q.empty
  | .roundRobin q => q.empty

/-- What is waiting to be run, in no order. -/
def waiting (q : TaskQueue φ) : Multiset φ :=
  match q with
  | .fcfs q => q.tasks.map Task.run
  | .priority q => ∑ level, ((q.levels level).map Task.run : Multiset φ)
  | .roundRobin q => q.tasks.map Task.run

end TaskQueue

/-! ## A queue is a bag -/

namespace PriorityQueue

/-- What waits at any level. -/
def bag (levels : Fin kPriorityLevels → List (Task φ)) : Multiset φ :=
  ∑ level, ((levels level).map Task.run : Multiset φ)

theorem bag_update (levels : Fin kPriorityLevels → List (Task φ)) (level : Fin kPriorityLevels)
    (tasks : List (Task φ)) :
    bag (Function.update levels level tasks) + ((levels level).map Task.run : Multiset φ)
      = bag levels + (tasks.map Task.run : Multiset φ) :=
  sum_weight_update (fun tasks : List (Task φ) => (tasks.map Task.run : Multiset φ)) levels level
    tasks

theorem bag_push (q : PriorityQueue φ) (task : Task φ) :
    bag (q.push task).levels = task.run ::ₘ bag q.levels := by
  have hsum := bag_update q.levels task.priority.level
    (q.levels task.priority.level ++ [{ task with sequence := q.nextSequence + 1 }])
  rw [List.map_append, ← Multiset.coe_add, ← add_assoc] at hsum
  refine add_right_cancel (hsum.trans ?_)
  rw [Multiset.cons_add, ← Multiset.singleton_add, add_comm]
  rfl

theorem takeFrom_none {q : PriorityQueue φ} {level : Fin kPriorityLevels} :
    q.takeFrom level = none ↔ q.levels level = [] := by
  unfold takeFrom
  split
  · rename_i h; simp [h]
  · rename_i h; simp [h]

theorem takeFirst_none {q : PriorityQueue φ} {levels : List (Fin kPriorityLevels)} :
    q.takeFirst levels = none ↔ ∀ level ∈ levels, q.levels level = [] := by
  induction levels with
  | nil => simp [takeFirst]
  | cons level levels ih =>
      rw [takeFirst, List.forall_mem_cons, ← ih, ← takeFrom_none]
      cases q.takeFrom level with
      | none => simp
      | some r => simp

/-- The front of one level has been taken; the two counters of aging are left open. -/
structure Taken (q : PriorityQueue φ) (level : Fin kPriorityLevels) (task : Task φ)
    (q' : PriorityQueue φ) : Prop where
  front : q.levels level = task :: q'.levels level
  others : ∀ l, l ≠ level → q'.levels l = q.levels l
  served : q'.served = q.served + 1
  nextSequence : q'.nextSequence = q.nextSequence
  aging : q'.aging = q.aging
  agingThreshold : q'.agingThreshold = q.agingThreshold

/-- What a successful `pop` does. -/
inductive Popped (q : PriorityQueue φ) (task : Task φ) (q' : PriorityQueue φ) : Prop
  /-- From the highest level that has a task; also when a promotion is due and nothing waits
  below the highest level. -/
  | served {level : Fin kPriorityLevels} (htaken : Taken q level task q')
      (hhigher : ∀ l, l < level → q.levels l = [])
      (hturn : q.aging = true → q.agingThreshold ≤ q.servesSincePromotion →
        ∀ l, l ≠ TaskPriority.high.level → q.levels l = [])
      (hpromotions : q'.promotions = q.promotions)
      (hsince : q'.servesSincePromotion = q.servesSincePromotion + 1)
  /-- From the lowest level that has one. -/
  | promoted {level : Fin kPriorityLevels} (htaken : Taken q level task q')
      (hlower : ∀ l, level < l → q.levels l = []) (hlevel : level ≠ TaskPriority.high.level)
      (haging : q.aging = true) (hdue : q.agingThreshold ≤ q.servesSincePromotion)
      (hpromotions : q'.promotions = q.promotions + 1) (hsince : q'.servesSincePromotion = 0)

theorem takeFrom_taken {q q' : PriorityQueue φ} {level : Fin kPriorityLevels} {task : Task φ}
    (h : q.takeFrom level = some (task, q')) :
    Taken q level task q' ∧ q'.promotions = q.promotions
      ∧ q'.servesSincePromotion = q.servesSincePromotion := by
  unfold takeFrom at h
  split at h
  · exact absurd h (by simp)
  · rename_i tasks hlevel
    injection h with h
    injection h with htask hq
    subst htask hq
    have hrest : Function.update q.levels level tasks level = tasks := Function.update_self ..
    refine ⟨⟨?_, fun l hl => Function.update_of_ne hl _ _, rfl, rfl, rfl, rfl⟩, rfl, rfl⟩
    exact hlevel.trans (congrArg (List.cons _) hrest.symm)

/-- The levels are tried in turn. -/
theorem takeFirst_taken {q q' : PriorityQueue φ} {levels : List (Fin kPriorityLevels)}
    {task : Task φ} (h : q.takeFirst levels = some (task, q')) :
    ∃ before level after, levels = before ++ level :: after ∧ (∀ l ∈ before, q.levels l = [])
      ∧ Taken q level task q' ∧ q'.promotions = q.promotions
      ∧ q'.servesSincePromotion = q.servesSincePromotion := by
  induction levels with
  | nil => exact absurd h (by simp [takeFirst])
  | cons level levels ih =>
      rw [takeFirst] at h
      split at h
      · rename_i hlevel
        rw [h] at hlevel
        exact ⟨[], level, levels, rfl, by simp, takeFrom_taken hlevel⟩
      · rename_i hnone
        obtain ⟨before, l, after, rfl, hbefore, htaken⟩ := ih h
        refine ⟨level :: before, l, after, rfl, ?_, htaken⟩
        exact List.forall_mem_cons.mpr ⟨takeFrom_none.mp hnone, hbefore⟩

/-- What comes earlier in the order of a list has been tried. -/
theorem mem_tried {R : Fin kPriorityLevels → Fin kPriorityLevels → Prop}
    {before after : List (Fin kPriorityLevels)} {level l : Fin kPriorityLevels}
    (hsorted : (before ++ level :: after).Pairwise R) (hmem : l ∈ before ++ level :: after)
    (hne : l ≠ level) (hl : ¬ R level l) : l ∈ before := by
  rcases List.mem_append.mp hmem with hm | hm
  · exact hm
  · rcases List.mem_cons.mp hm with rfl | hm
    · exact absurd rfl hne
    · have hafter := (List.pairwise_append.mp hsorted).2.1
      exact absurd ((List.pairwise_cons.mp hafter).1 l hm) hl

theorem Taken.recount {q q' : PriorityQueue φ} {level : Fin kPriorityLevels} {task : Task φ}
    (h : Taken q level task q') (promotions servesSincePromotion : Nat) :
    Taken q level task
      { q' with promotions := promotions, servesSincePromotion := servesSincePromotion } :=
  ⟨h.front, h.others, h.served, h.nextSequence, h.aging, h.agingThreshold⟩

theorem serve_taken {q q' : PriorityQueue φ} {task : Task φ} (h : q.serve = some (task, q')) :
    ∃ level, Taken q level task q' ∧ (∀ l, l < level → q.levels l = [])
      ∧ q'.promotions = q.promotions
      ∧ q'.servesSincePromotion = q.servesSincePromotion + 1 := by
  obtain ⟨⟨task', q''⟩, hfirst, heq⟩ := Option.map_eq_some_iff.mp h
  obtain ⟨before, level, after, hlevels, hbefore, htaken, hpromotions, -⟩ := takeFirst_taken hfirst
  obtain ⟨rfl, rfl⟩ := Prod.mk.inj heq
  refine ⟨level, htaken.recount _ _, fun l hl => hbefore l ?_, hpromotions, rfl⟩
  have hsorted : List.Pairwise (· < ·) ([0, 1, 2] : List (Fin kPriorityLevels)) := by decide
  have hall : ∀ l : Fin kPriorityLevels, l ∈ ([0, 1, 2] : List (Fin kPriorityLevels)) := by decide
  exact mem_tried (hlevels ▸ hsorted) (hlevels ▸ hall l) (ne_of_lt hl) (lt_asymm hl)

theorem pop_effect {q q' : PriorityQueue φ} {task : Task φ} (h : q.pop = some (task, q')) :
    Popped q task q' := by
  have hbelow : ∀ l : Fin kPriorityLevels,
      l ≠ TaskPriority.high.level ↔ l ∈ ([2, 1] : List (Fin kPriorityLevels)) := by decide
  have hserve : (q.aging = true → q.agingThreshold ≤ q.servesSincePromotion →
      ∀ l, l ≠ TaskPriority.high.level → q.levels l = []) → q.serve = some (task, q') →
      Popped q task q' := by
    intro hturn hs
    obtain ⟨level, htaken, hhigher, hpromotions, hsince⟩ := serve_taken hs
    exact .served htaken hhigher hturn hpromotions hsince
  unfold pop at h
  split at h
  · exact absurd h (by simp)
  · split at h
    · rename_i hdue
      split at h
      · rename_i task' q'' hfirst
        obtain ⟨before, level, after, hlevels, hbefore, htaken, -, -⟩ := takeFirst_taken hfirst
        obtain ⟨rfl, rfl⟩ := Prod.mk.inj (Option.some.inj h)
        have hlevel : level ≠ TaskPriority.high.level := by
          rw [hbelow, hlevels]
          simp
        refine .promoted (htaken.recount _ _)
          (fun l hl => hbefore l ?_) hlevel hdue.1 hdue.2 rfl rfl
        -- the levels are tried from the lowest, and the highest is not tried
        have hsorted : List.Pairwise (fun a b => b < a) ([2, 1] : List (Fin kPriorityLevels)) := by
          decide
        have hl0 : l ≠ TaskPriority.high.level := by
          rintro rfl
          exact absurd hl (Fin.not_lt_zero level)
        exact mem_tried (R := fun a b => b < a) (hlevels ▸ hsorted) (hlevels ▸ (hbelow l).mp hl0)
          (ne_of_gt hl) (lt_asymm hl)
      · -- nothing to promote: an ordinary turn, and the promotion stays due
        rename_i hnone
        refine hserve (fun _ _ l hl => ?_) h
        exact takeFirst_none.mp hnone l ((hbelow l).mp hl)
    · rename_i hdue
      exact hserve (fun haging hle => absurd ⟨haging, hle⟩ hdue) h

theorem Popped.taken {q q' : PriorityQueue φ} {task : Task φ} (h : Popped q task q') :
    ∃ level, Taken q level task q' := by
  cases h with
  | served htaken => exact ⟨_, htaken⟩
  | promoted htaken => exact ⟨_, htaken⟩

theorem Taken.bag {q q' : PriorityQueue φ} {level : Fin kPriorityLevels} {task : Task φ}
    (h : Taken q level task q') : bag q.levels = task.run ::ₘ bag q'.levels := by
  have hlevels : q'.levels = Function.update q.levels level (q'.levels level) := by
    funext l
    by_cases hl : l = level
    · rw [hl, Function.update_self]
    · rw [Function.update_of_ne hl, h.others l hl]
  have hsum := bag_update q.levels level (q'.levels level)
  rw [← hlevels, h.front, List.map_cons, ← Multiset.cons_coe, Multiset.add_cons,
    ← Multiset.cons_add] at hsum
  exact (add_right_cancel hsum).symm

theorem pop_some {q q' : PriorityQueue φ} {task : Task φ} (h : q.pop = some (task, q')) :
    bag q.levels = task.run ::ₘ bag q'.levels := by
  obtain ⟨level, htaken⟩ := (pop_effect h).taken
  exact htaken.bag

theorem card_bag (q : PriorityQueue φ) : (bag q.levels).card = q.count := by
  rw [q.counted, bag, Multiset.card_sum]
  simp

/-- `count` is not zero, so some level has a task. -/
theorem serve_none {q : PriorityQueue φ} (h : q.serve = none) : q.count = 0 := by
  have hall := takeFirst_none.mp (Option.map_eq_none_iff.mp h)
  rw [q.counted]
  refine Finset.sum_eq_zero fun level _ => ?_
  have hmem : ∀ l : Fin kPriorityLevels, l ∈ [0, 1, 2] := by decide
  rw [hall level (hmem level), List.length_nil]

theorem pop_none {q : PriorityQueue φ} : q.pop = none ↔ q.count = 0 := by
  unfold pop
  split
  · rename_i h; simp [h]
  · rename_i h
    split
    · split
      · simp [h]
      · exact iff_of_false (fun hnone => h (serve_none hnone)) h
    · exact iff_of_false (fun hnone => h (serve_none hnone)) h

end PriorityQueue

namespace TaskQueue

@[simp] theorem waiting_makeTaskQueue (policy : SchedulingPolicy) (aging : Bool) (threshold : Nat) :
    (makeTaskQueue policy aging threshold : TaskQueue φ).waiting = 0 := by
  cases policy with
  | fcfs => rfl
  | roundRobin => rfl
  | priority => exact Finset.sum_eq_zero fun _ _ => rfl

/-- **What is pushed waits**, whatever the policy. -/
theorem waiting_push (q : TaskQueue φ) (task : Task φ) :
    (q.push task).waiting = task.run ::ₘ q.waiting := by
  cases q with
  | fcfs q => simp [push, waiting, FcfsQueue.push]
  | priority q => exact q.bag_push task
  | roundRobin q => simp [push, waiting, RoundRobinQueue.push]

/-- **What is popped waited**, and does so no longer. -/
theorem waiting_pop {q q' : TaskQueue φ} {task : Task φ} (h : q.pop = some (task, q')) :
    q.waiting = task.run ::ₘ q'.waiting := by
  cases q with
  | fcfs q =>
      obtain ⟨r, hpop, heq⟩ := Option.map_eq_some_iff.mp h
      obtain ⟨rfl, rfl⟩ := Prod.mk.inj heq
      unfold FcfsQueue.pop at hpop
      split at hpop
      · exact absurd hpop (by simp)
      · rename_i htasks
        cases hpop
        simp [waiting, htasks]
  | priority q =>
      obtain ⟨r, hpop, heq⟩ := Option.map_eq_some_iff.mp h
      obtain ⟨rfl, rfl⟩ := Prod.mk.inj heq
      exact PriorityQueue.pop_some hpop
  | roundRobin q =>
      obtain ⟨r, hpop, heq⟩ := Option.map_eq_some_iff.mp h
      obtain ⟨rfl, rfl⟩ := Prod.mk.inj heq
      unfold RoundRobinQueue.pop at hpop
      split at hpop
      · exact absurd hpop (by simp)
      · rename_i htasks
        cases hpop
        simp [waiting, htasks]

theorem empty_iff {q : TaskQueue φ} : q.empty = true ↔ q.waiting = 0 := by
  cases q with
  | fcfs q => simp [empty, waiting, FcfsQueue.empty]
  | priority q =>
      show decide (q.count = 0) = true ↔ PriorityQueue.bag q.levels = 0
      rw [decide_eq_true_iff, ← q.card_bag, Multiset.card_eq_zero]
  | roundRobin q => simp [empty, waiting, RoundRobinQueue.empty]

/-- A pop fails exactly when nothing waits. -/
theorem pop_none {q : TaskQueue φ} : q.pop = none ↔ q.empty = true := by
  cases q with
  | fcfs q =>
      simp only [pop, empty, Option.map_eq_none_iff, FcfsQueue.pop, FcfsQueue.empty]
      cases q.tasks <;> simp
  | priority q =>
      simp only [pop, empty, Option.map_eq_none_iff, PriorityQueue.pop_none, PriorityQueue.empty,
        decide_eq_true_iff]
  | roundRobin q =>
      simp only [pop, empty, Option.map_eq_none_iff, RoundRobinQueue.pop, RoundRobinQueue.empty]
      cases q.tasks <;> simp

end TaskQueue

end KvStore.Pool
