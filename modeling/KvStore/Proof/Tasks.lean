import KvStore.Pool.ThreadPool
import Mathlib.Algebra.Order.BigOperators.Group.Finset

/-!
# No task is lost

Every task that was accepted is in one place: in the queue, in the hands of one
worker, or finished. Nothing that happens changes that, since a task that moves
leaves the one place for the other.

A worker leaves when the pool is stopping and the queue is empty, and a task may
still be put back after that. Whoever puts it back has not left, and looks at the
queue again before it does. So the queue is never left with a task and nobody to
take it.
-/

namespace KvStore.Pool

open Lib

/-- The task in a worker's hands. -/
def Worker.held : Worker → Multiset Nat
  | .idle => 0
  | .running task => {task.run.id}
  | .yielded task => {task.run.id}
  | .exited => 0

namespace ThreadPool

variable {n : Nat}

/-! ## What a step does -/

/-- What a step of the pool comes to. -/
inductive Stepped (p : ThreadPool n) : Act n → ThreadPool n → Prop
  | refused {yields : Nat} {throws : Bool} {priority : TaskPriority} (hstop : p.stopping = true) :
      Stepped p (.submit yields throws priority false) p
  | accepted {yields : Nat} {throws : Bool} {priority : TaskPriority} (hstop : p.stopping = false) :
      Stepped p (.submit yields throws priority true) { p with
        queue := p.queue.push
          { run := { id := p.accepted, yields := yields, throws := throws }, priority := priority }
        accepted := p.accepted + 1 }
  | stopped : Stepped p .shutdown { p with stopping := true }
  | joined : Stepped p .join p
  | left {t : Fin n} (hidle : p.workers t = .idle) (hstop : p.stopping = true)
      (hempty : p.queue.empty = true) :
      Stepped p (.take t) { p with workers := Function.update p.workers t .exited }
  | taken {t : Fin n} {task : Task TaskFn} {queue : TaskQueue TaskFn} (hidle : p.workers t = .idle)
      (hpop : p.queue.pop = some (task, queue)) :
      Stepped p (.take t)
        { p with queue := queue, workers := Function.update p.workers t (.running task) }
  | finished {t : Fin n} {task : Task TaskFn} (hrun : p.workers t = .running task) :
      Stepped p (.run t) { p with
        workers := Function.update p.workers t .idle
        tasksExecuted := p.tasksExecuted + 1
        finished := p.finished ++ [task.run.id] }
  | yielded {t : Fin n} {task : Task TaskFn} {fn : TaskFn} (hrun : p.workers t = .running task)
      (hid : fn.id = task.run.id) :
      Stepped p (.run t) { p with
        workers := Function.update p.workers t (.yielded { task with run := fn })
        tasksExecuted := p.tasksExecuted + 1
        taskYields := p.taskYields + 1 }
  | requeued {t : Fin n} {task : Task TaskFn} (hyield : p.workers t = .yielded task) :
      Stepped p (.requeue t)
        { p with queue := p.queue.push task, workers := Function.update p.workers t .idle }

theorem step_effect {p p' : ThreadPool n} {a : Act n} (hs : step p a = some p') :
    Stepped p a p' := by
  cases a with
  | submit yields throws priority answer =>
      rw [step] at hs
      split at hs
      · rename_i hanswer
        cases hs
        cases hstop : p.stopping with
        | true =>
            have hsubmit : p.submit yields throws priority = (p, false) := if_pos hstop
            rw [← hanswer, hsubmit]
            exact .refused hstop
        | false =>
            have hsubmit : p.submit yields throws priority = _ := if_neg (by simp [hstop])
            rw [← hanswer, hsubmit]
            exact .accepted hstop
      · exact absurd hs (by simp)
  | shutdown =>
      cases hs
      exact .stopped
  | join =>
      rw [step] at hs
      split at hs
      · cases hs
        exact .joined
      · exact absurd hs (by simp)
  | take t =>
      rw [step] at hs
      split at hs
      · rename_i hgo
        cases hs
        unfold take
        split
        · rename_i hleave
          exact .left hgo.1 hleave.1 hleave.2
        · rename_i hstay
          split
          · -- the wait is over, so there was something to take
            rename_i hpop
            have hempty := TaskQueue.pop_none.mp hpop
            have hstop := hgo.2.resolve_right (by simp [hempty])
            exact absurd ⟨hstop, hempty⟩ hstay
          · rename_i hpop
            exact .taken hgo.1 hpop
      · exact absurd hs (by simp)
  | run t =>
      rw [step] at hs
      split at hs
      · rename_i task hrun
        cases hs
        unfold run TaskFn.call
        split
        · exact .finished hrun
        · rename_i hcall
          split at hcall
          · exact absurd hcall (by simp)
          · cases hcall
            exact .yielded hrun rfl
      · exact absurd hs (by simp)
  | requeue t =>
      rw [step] at hs
      split at hs
      · rename_i hyield
        cases hs
        exact .requeued hyield
      · exact absurd hs (by simp)

/-! ## Where a task is -/

/-- Every place in which a task can be. -/
def places (p : ThreadPool n) : Multiset Nat :=
  p.queue.waiting.map TaskFn.id + ∑ t, (p.workers t).held + p.finished

theorem held_update (workers : Fin n → Worker) (t : Fin n) (w : Worker) :
    ∑ t', (Function.update workers t w t').held + (workers t).held
      = ∑ t', (workers t').held + w.held :=
  sum_weight_update Worker.held workers t w

/-- Where the tasks are, and that somebody is there for them. -/
structure NoTaskLost (p : ThreadPool n) : Prop where
  /-- Every task that was accepted is in one place. -/
  placed : p.places = Multiset.range p.accepted
  exited : ∀ t, p.workers t = .exited → p.stopping = true
  /-- Someone is still there to take what waits. -/
  attended : p.queue.empty = false → ∃ t, p.workers t ≠ .exited

theorem noTaskLost_init (hn : 0 < n) (policy : SchedulingPolicy) (aging : Bool) (threshold : Nat) :
    NoTaskLost ({ queue := makeTaskQueue policy aging threshold } : ThreadPool n) := by
  refine ⟨?_, fun t h => absurd h (by simp), fun _ => ⟨⟨0, hn⟩, by simp⟩⟩
  simp [places, Worker.held]

/-- A task that changes hands between the queue and a worker is in one place still. -/
theorem places_move {p : ThreadPool n} {t : Fin n} {w : Worker} (queue : TaskQueue TaskFn)
    (h : queue.waiting.map TaskFn.id + w.held
      = p.queue.waiting.map TaskFn.id + (p.workers t).held) :
    places { p with queue := queue, workers := Function.update p.workers t w } = p.places := by
  have hworkers := held_update p.workers t w
  unfold places
  dsimp only
  congr 1
  -- what the queue gains, the worker loses
  refine add_right_cancel (b := (p.workers t).held) ?_
  rw [add_assoc, hworkers, add_comm (∑ t', (p.workers t').held), ← add_assoc, h]
  exact add_right_comm _ _ _

/-- Who has left is who had left before, when the worker that moves does not leave. -/
theorem exited_update {workers : Fin n → Worker} {stopping : Bool} {t : Fin n} {w : Worker}
    (h : ∀ t, workers t = .exited → stopping = true) (hw : w ≠ .exited) (t' : Fin n)
    (ht' : Function.update workers t w t' = .exited) : stopping = true := by
  by_cases heq : t' = t
  · subst heq
    rw [Function.update_self] at ht'
    exact absurd ht' hw
  · rw [Function.update_of_ne heq] at ht'
    exact h t' ht'

theorem noTaskLost_step {p p' : ThreadPool n} {a : Act n} (hn : 0 < n) (h : NoTaskLost p)
    (hs : Stepped p a p') : NoTaskLost p' := by
  cases hs with
  | refused _ => exact h
  | accepted hstop =>
      refine ⟨?_, h.exited, fun _ => ⟨⟨0, hn⟩, fun hex => ?_⟩⟩
      · have hplaced := h.placed
        unfold places at hplaced ⊢
        rw [TaskQueue.waiting_push, Multiset.map_cons, Multiset.cons_add, Multiset.cons_add,
          hplaced,
          Multiset.range_succ]
      · -- nobody leaves before the pool is stopping
        rw [h.exited _ hex] at hstop
        exact absurd hstop (by simp)
  | stopped => exact ⟨h.placed, fun _ _ => rfl, h.attended⟩
  | joined => exact h
  | @left t hidle hstop hempty =>
      refine ⟨?_, fun _ _ => hstop, fun hne => absurd (hempty.symm.trans hne) (by simp)⟩
      rw [← h.placed]
      exact places_move p.queue (by rw [hidle]; rfl)
  | @taken t task queue hidle hpop =>
      refine ⟨?_, ?_, fun _ => ⟨t, by simp⟩⟩
      · rw [← h.placed]
        refine places_move _ ?_
        rw [hidle, TaskQueue.waiting_pop hpop, Multiset.map_cons, ← Multiset.singleton_add,
          add_comm]
        exact (add_zero _).symm
      · exact exited_update h.exited (by simp)
  | @finished t task hrun =>
      refine ⟨?_, exited_update h.exited (by simp), fun _ => ⟨t, by simp⟩⟩
      have hworkers := held_update p.workers t .idle
      rw [hrun] at hworkers
      rw [← h.placed]
      unfold places
      dsimp only
      -- out of the worker's hands, onto the list
      rw [← Multiset.coe_add, ← add_assoc, add_right_comm, add_assoc (Multiset.map _ _),
        show (([task.run.id] : List Nat) : Multiset Nat) = (Worker.running task).held from rfl,
          hworkers,
        show Worker.idle.held = 0 from rfl, add_zero]
  | @yielded t task fn hrun hid =>
      refine ⟨?_, exited_update h.exited (by simp), ?_⟩
      · rw [← h.placed]
        refine places_move p.queue ?_
        rw [hrun, Worker.held, Worker.held, hid]
      · exact fun _ => ⟨t, by simp⟩
  | @requeued t task hyield =>
      refine ⟨?_, exited_update h.exited (by simp), fun _ => ⟨t, by simp⟩⟩
      rw [← h.placed]
      refine places_move _ ?_
      rw [hyield, TaskQueue.waiting_push, Multiset.map_cons, ← Multiset.singleton_add, add_comm]
      exact (zero_add _).trans (add_comm _ _)

theorem noTaskLost_reachable (hn : 0 < n) {policy : SchedulingPolicy} {aging : Bool}
    {threshold : Nat} {p : ThreadPool n}
    (h : (system n policy aging threshold).Reachable p) : NoTaskLost p := by
  refine h.invariant (I := NoTaskLost) ?_ fun _ _ _ hp _ hs =>
    noTaskLost_step hn hp (step_effect hs)
  rintro p rfl
  exact noTaskLost_init hn policy aging threshold

/-- Once the pool is stopping it stays so. -/
theorem stopping_step {p p' : ThreadPool n} {a : Act n} (hs : step p a = some p')
    (h : p.stopping = true) : p'.stopping = true := by
  cases step_effect hs with
  | stopped => rfl
  | _ => exact h

/-- A task in no more than one place is in the hands of no more than one worker. -/
theorem holder_unique {p : ThreadPool n} {id : Nat} (h : p.places.count id ≤ 1) {t t' : Fin n}
    (ht : id ∈ (p.workers t).held) (ht' : id ∈ (p.workers t').held) : t = t' := by
  by_contra hne
  have hsum : (p.workers t).held.count id + (p.workers t').held.count id
      ≤ ∑ t, (p.workers t).held.count id := by
    rw [← Finset.sum_pair (f := fun t => (p.workers t).held.count id) hne]
    exact Finset.sum_le_sum_of_subset (Finset.subset_univ _)
  have h1 := Multiset.one_le_count_iff_mem.mpr ht
  have h1' := Multiset.one_le_count_iff_mem.mpr ht'
  rw [places, Multiset.count_add, Multiset.count_add, Multiset.count_sum'] at h
  omega

/-- A worker that has not left can do something, as long as there is a task for it. -/
theorem worker_enabled {p : ThreadPool n} {t : Fin n} (ht : p.workers t ≠ .exited)
    (hwork : p.queue.empty = false ∨ p.workers t ≠ .idle) :
    ∃ a ∈ [Act.take t, Act.run t, Act.requeue t], ∃ p', p.step a = some p' := by
  cases hw : p.workers t with
  | idle =>
      have hempty := hwork.resolve_right (by simp [hw])
      exact ⟨.take t, by simp, _, if_pos ⟨hw, .inr hempty⟩⟩
  | running task => exact ⟨.run t, by simp, p.run t task, by rw [step, hw]⟩
  | yielded task => exact ⟨.requeue t, by simp, p.requeue t task, by rw [step, hw]⟩
  | exited => exact absurd hw ht

/-- An accepted task that has not finished is one that some worker can get on with. -/
theorem NoTaskLost.enabled {p : ThreadPool n} (h : NoTaskLost p) {id : Nat} (hid : id < p.accepted)
    (hnot : id ∉ p.finished) :
    ∃ t, ∃ a ∈ [Act.take t, Act.run t, Act.requeue t], ∃ p', p.step a = some p' := by
  have hmem : id ∈ p.places := by
    rw [h.placed]
    exact Multiset.mem_range.mpr hid
  rw [places, Multiset.mem_add, Multiset.mem_add, Multiset.mem_sum] at hmem
  rcases hmem with (hqueue | ⟨t, -, hheld⟩) | hfin
  · have hempty : p.queue.empty = false := by
      rw [Bool.eq_false_iff]
      intro hempty
      rw [TaskQueue.empty_iff.mp hempty] at hqueue
      exact absurd hqueue (by simp)
    obtain ⟨t, ht⟩ := h.attended hempty
    exact ⟨t, worker_enabled ht (.inl hempty)⟩
  · refine ⟨t, worker_enabled ?_ (.inr ?_)⟩
    · intro hw
      rw [hw] at hheld
      exact absurd hheld (Multiset.notMem_zero _)
    · intro hw
      rw [hw] at hheld
      exact absurd hheld (Multiset.notMem_zero _)
  · exact absurd hfin hnot

/-- When everyone has left there is nothing in the queue, and every task is finished. -/
theorem NoTaskLost.drained {p : ThreadPool n} (h : NoTaskLost p)
    (hleft : ∀ t, p.workers t = .exited) :
    p.queue.empty = true ∧ (p.finished : Multiset Nat) = Multiset.range p.accepted := by
  have hempty : p.queue.empty = true := by
    by_contra hne
    obtain ⟨t, ht⟩ := h.attended (Bool.eq_false_iff.mpr hne)
    exact ht (hleft t)
  refine ⟨hempty, ?_⟩
  have hheld : ∑ t, (p.workers t).held = 0 :=
    Finset.sum_eq_zero fun t _ => by rw [hleft t]; rfl
  rw [← h.placed, places, TaskQueue.empty_iff.mp hempty, hheld, Multiset.map_zero, zero_add,
    zero_add]

/-- The thread pool loses no task, under any of the policies. A task that `submit` has
accepted is in exactly one place, it is not in the hands of two workers, and while it
is unfinished some worker can take a step. Once the pool is stopping it stays so and
`submit` refuses; and when it is stopping and every worker has left, the queue is
empty and every accepted task has finished exactly once. -/
theorem no_task_lost {policy : SchedulingPolicy} {aging : Bool} {threshold : Nat} (hn : 0 < n)
    {p : ThreadPool n} (h : (system n policy aging threshold).Reachable p) :
    (∀ id < p.accepted, p.places.count id = 1)
      ∧ (∀ id t t', id ∈ (p.workers t).held → id ∈ (p.workers t').held → t = t')
      ∧ (∀ id < p.accepted, id ∉ p.finished →
          ∃ t, ∃ a ∈ [Act.take t, Act.run t, Act.requeue t], ∃ p', p.step a = some p')
      ∧ (p.stopping = true →
          (∀ yields throws priority, p.submit yields throws priority = (p, false))
            ∧ ∀ a p', p.step a = some p' → p'.stopping = true)
      ∧ (p.stopping = true → (∀ t, p.workers t = .exited) →
          p.queue.empty = true ∧ ∀ id < p.accepted, p.finished.count id = 1) := by
  have hacc := noTaskLost_reachable hn h
  have hnodup : p.places.Nodup := by
    rw [hacc.placed]
    exact Multiset.nodup_range _
  refine ⟨fun id hid => ?_, fun id t t' => ?_, fun id => hacc.enabled, fun hstop => ?_,
    fun _ hleft => ?_⟩
  · refine Multiset.count_eq_one_of_mem hnodup ?_
    rw [hacc.placed]
    exact Multiset.mem_range.mpr hid
  · exact holder_unique (Multiset.nodup_iff_count_le_one.mp hnodup id)
  · exact ⟨fun _ _ _ => if_pos hstop, fun a p' hs => stopping_step hs hstop⟩
  · -- nobody is left to hold a task, so all of them have finished
    obtain ⟨hempty, hfin⟩ := hacc.drained hleft
    refine ⟨hempty, fun id hid => ?_⟩
    rw [← Multiset.coe_count, hfin]
    exact Multiset.count_eq_one_of_mem (Multiset.nodup_range _) (Multiset.mem_range.mpr hid)

/-- The second worker leaves while the task is in the first one's hands, and the task
goes back into the queue after that. -/
def putBack : List (Act 2) :=
  [.submit 1 true .high true, .take 0, .run 0, .shutdown, .take 1, .requeue 0,
    .submit 0 false .low false,
    .take 0, .run 0, .take 0, .join]

theorem no_task_lost_putBack :
    ∃ p, (system 2 .priority true 2).Reachable p ∧ p.accepted = 1 ∧ p.tasksExecuted = 2
      ∧ p.queue.empty = true ∧ ∀ id < p.accepted, p.finished.count id = 1 := by
  obtain ⟨p, hreach, hstop, hleft, hone, htwo⟩ := System.exists_reachableBy
    (p := fun p => p.stopping = true ∧ (∀ t, p.workers t = .exited) ∧ p.accepted = 1
      ∧ p.tasksExecuted = 2)
    (show (system 2 .priority true 2).Reachable _ from .init rfl)
    putBack (by decide +kernel) (by decide +kernel)
  exact ⟨p, hreach, hone, htwo, (no_task_lost (by decide) hreach).2.2.2.2 hstop hleft⟩

end ThreadPool

end KvStore.Pool
