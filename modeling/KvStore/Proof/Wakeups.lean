import KvStore.Pool.Monitor
import KvStore.Proof.Tasks

/-!
# No wake-up is lost

A notification that finds nobody asleep is gone, and one that finds somebody may wake up a
worker that another one has forestalled by the time it has the mutex. What keeps the pool
from sleeping over its tasks is that as long as anybody sleeps, there are at least as many
on the way as there are tasks in the queue: workers that are awake and have nothing in their
hands, and notifications that are still to come.

Once the pool is stopping nobody falls asleep any more. Every step that is taken then is one
of so many, and when none can be taken every worker has left.
-/

namespace KvStore.Pool.Monitor

open Lib
open ThreadPool (NoTaskLost)

variable {n : Nat} {m m' : Monitor n}

/-! ## The pool below -/

/-- A step is a step of the pool, or one that the pool does not see. -/
theorem step_pool {a : Act n} (hs : step m a = some m') :
    m'.pool = m.pool ∨ ∃ b, m.pool.step b = some m'.pool := by
  cases a with
  | submit yields throws priority answer =>
      obtain ⟨p, hp, rfl⟩ := Option.map_eq_some_iff.mp hs
      exact .inr ⟨_, hp⟩
  | notify woken =>
      rw [step] at hs
      split at hs
      · cases hs
        exact .inl rfl
      · exact absurd hs (by simp)
  | shutdown =>
      cases hs
      exact .inr ⟨.shutdown, rfl⟩
  | notifyAll =>
      rw [step] at hs
      split at hs
      · cases hs
        exact .inl rfl
      · exact absurd hs (by simp)
  | join =>
      rw [step] at hs
      split at hs
      · exact absurd hs (by simp)
      · obtain ⟨p, hp, rfl⟩ := Option.map_eq_some_iff.mp hs
        exact .inr ⟨_, hp⟩
  | enter t =>
      rw [step] at hs
      split at hs
      · split at hs
        · obtain ⟨p, hp, rfl⟩ := Option.map_eq_some_iff.mp hs
          exact .inr ⟨_, hp⟩
        · cases hs
          exact .inl rfl
      · exact absurd hs (by simp)
  | run t =>
      obtain ⟨p, hp, rfl⟩ := Option.map_eq_some_iff.mp hs
      exact .inr ⟨_, hp⟩
  | requeue t =>
      obtain ⟨p, hp, rfl⟩ := Option.map_eq_some_iff.mp hs
      exact .inr ⟨_, hp⟩
  | notifyBack t woken =>
      rw [step] at hs
      split at hs
      · cases hs
        exact .inl rfl
      · exact absurd hs (by simp)
  | spurious t =>
      rw [step] at hs
      split at hs
      · cases hs
        exact .inl rfl
      · exact absurd hs (by simp)

theorem pool_reachable {policy : SchedulingPolicy} {aging : Bool} {threshold : Nat}
    (h : (system n policy aging threshold).Reachable m) :
    (ThreadPool.system n policy aging threshold).Reachable m.pool := by
  refine h.invariant (I := fun m => (ThreadPool.system n policy aging threshold).Reachable m.pool)
    ?_ fun m a m' hm _ hs => ?_
  · rintro m rfl
    exact .init rfl
  · rcases step_pool hs with hsame | ⟨b, hb⟩
    · rw [hsame]
      exact hm
    · exact hm.tail trivial hb

/-! ## What a step does -/

/-- Everything that a step can do, with what it needs. -/
inductive StepEffect (m : Monitor n) : Act n → Monitor n → Prop
  | refused {yields : Nat} {throws : Bool} {priority : TaskPriority}
      (hstop : m.pool.stopping = true) : StepEffect m (.submit yields throws priority false) m
  | accepted {yields : Nat} {throws : Bool} {priority : TaskPriority} {task : Task TaskFn}
      {count : Nat} (hstop : m.pool.stopping = false) :
      StepEffect m (.submit yields throws priority true)
        { m with
          pool := { m.pool with queue := m.pool.queue.push task, accepted := count }
          owed := m.owed + 1 }
  | notified {woken : Option (Fin n)} (howed : 0 < m.owed) (hwakes : Wakes m.place woken) :
      StepEffect m (.notify woken) { m with owed := m.owed - 1, place := wake m.place woken }
  | stopped : StepEffect m .shutdown
      { m with
        pool := { m.pool with stopping := true }
        announcing := if m.pool.stopping then m.announcing else true }
  | announced (hannouncing : m.announcing = true) : StepEffect m .notifyAll
      { m with
        announcing := false
        place := fun t => if m.place t = .asleep then .awake else m.place t }
  | joined : StepEffect m .join m
  | slept {t : Fin n} (hawake : m.place t = .awake) (hidle : m.pool.workers t = .idle)
      (hstop : m.pool.stopping = false) (hempty : m.pool.queue.empty = true) :
      StepEffect m (.enter t) { m with place := Function.update m.place t .asleep }
  | left {t : Fin n} (hawake : m.place t = .awake) (hidle : m.pool.workers t = .idle)
      (hstop : m.pool.stopping = true) (hempty : m.pool.queue.empty = true) :
      StepEffect m (.enter t)
        { m with pool := { m.pool with workers := Function.update m.pool.workers t .exited } }
  | taken {t : Fin n} {task : Task TaskFn} {queue : TaskQueue TaskFn}
      (hawake : m.place t = .awake) (hidle : m.pool.workers t = .idle)
      (hpop : m.pool.queue.pop = some (task, queue)) :
      StepEffect m (.enter t)
        { m with
          pool := { m.pool with
            queue := queue, workers := Function.update m.pool.workers t (.running task) } }
  | finished {t : Fin n} {task : Task TaskFn} {executed : Nat} {done : List Nat}
      (hrun : m.pool.workers t = .running task) :
      StepEffect m (.run t)
        { m with
          pool := { m.pool with
            workers := Function.update m.pool.workers t .idle
            tasksExecuted := executed
            finished := done } }
  | yielded {t : Fin n} {task : Task TaskFn} {fn : TaskFn} {executed yields : Nat}
      (hrun : m.pool.workers t = .running task) (hfn : fn.yields + 1 = task.run.yields) :
      StepEffect m (.run t)
        { m with
          pool := { m.pool with
            workers := Function.update m.pool.workers t (.yielded { task with run := fn })
            tasksExecuted := executed
            taskYields := yields } }
  | requeued {t : Fin n} {task : Task TaskFn} (hyield : m.pool.workers t = .yielded task) :
      StepEffect m (.requeue t)
        { m with
          pool := { m.pool with
            queue := m.pool.queue.push task, workers := Function.update m.pool.workers t .idle }
          place := Function.update m.place t .notifying }
  | notifiedBack {t : Fin n} {woken : Option (Fin n)} (hnotifying : m.place t = .notifying)
      (hwakes : Wakes m.place woken) :
      StepEffect m (.notifyBack t woken)
        { m with place := Function.update (wake m.place woken) t .awake }
  | stirred {t : Fin n} (hasleep : m.place t = .asleep) :
      StepEffect m (.spurious t) { m with place := Function.update m.place t .awake }

theorem moved {a : Act n} (hs : step m a = some m') : StepEffect m a m' := by
  cases a with
  | submit yields throws priority answer =>
      obtain ⟨p, hp, rfl⟩ := Option.map_eq_some_iff.mp hs
      cases ThreadPool.step_effect hp with
      | refused hstop => exact .refused hstop
      | accepted hstop => exact .accepted hstop
  | notify woken =>
      rw [step] at hs
      split at hs
      · rename_i hgo
        cases hs
        exact .notified hgo.1 hgo.2
      · exact absurd hs (by simp)
  | shutdown =>
      cases hs
      exact .stopped
  | notifyAll =>
      rw [step] at hs
      split at hs
      · rename_i hgo
        cases hs
        exact .announced hgo
      · exact absurd hs (by simp)
  | join =>
      rw [step] at hs
      split at hs
      · exact absurd hs (by simp)
      · obtain ⟨p, hp, rfl⟩ := Option.map_eq_some_iff.mp hs
        cases ThreadPool.step_effect hp with
        | joined => exact .joined
  | enter t =>
      rw [step] at hs
      split at hs
      · rename_i hgo
        split at hs
        · obtain ⟨p, hp, rfl⟩ := Option.map_eq_some_iff.mp hs
          cases ThreadPool.step_effect hp with
          | left hidle hstop hempty => exact .left hgo.1 hidle hstop hempty
          | taken hidle hpop => exact .taken hgo.1 hidle hpop
        · rename_i hwait
          cases hs
          obtain ⟨hstop, hempty⟩ := not_or.mp hwait
          exact .slept hgo.1 hgo.2 (Bool.eq_false_iff.mpr hstop) (by simpa using hempty)
      · exact absurd hs (by simp)
  | run t =>
      obtain ⟨p, hp, rfl⟩ := Option.map_eq_some_iff.mp hs
      rw [ThreadPool.step] at hp
      split at hp
      · rename_i task hrun
        cases hp
        unfold ThreadPool.run TaskFn.call
        split
        · exact .finished hrun
        · rename_i fn hcall
          split at hcall
          · exact absurd hcall (by simp)
          · rename_i hyields
            cases hcall
            exact .yielded hrun (Nat.sub_add_cancel (Nat.pos_of_ne_zero hyields))
      · exact absurd hp (by simp)
  | requeue t =>
      obtain ⟨p, hp, rfl⟩ := Option.map_eq_some_iff.mp hs
      cases ThreadPool.step_effect hp with
      | requeued hyield => exact .requeued hyield
  | notifyBack t woken =>
      rw [step] at hs
      split at hs
      · rename_i hgo
        cases hs
        exact .notifiedBack hgo.1 hgo.2
      · exact absurd hs (by simp)
  | spurious t =>
      rw [step] at hs
      split at hs
      · rename_i hgo
        cases hs
        exact .stirred hgo
      · exact absurd hs (by simp)

/-! ## Who is on the way -/

/-- A worker that is going to look at the queue, or to notify one that will. -/
def arriving : Place → Worker → Nat
  | .awake, .idle => 1
  | .notifying, _ => 1
  | _, _ => 0

@[simp] theorem arriving_idle : arriving .awake .idle = 1 := rfl

@[simp] theorem arriving_notifying (w : Worker) : arriving .notifying w = 1 := rfl

@[simp] theorem arriving_asleep (w : Worker) : arriving .asleep w = 0 := rfl

@[simp] theorem arriving_running (task : Task TaskFn) : arriving .awake (.running task) = 0 := rfl

@[simp] theorem arriving_yielded (task : Task TaskFn) : arriving .awake (.yielded task) = 0 := rfl

/-- How many are on the way to the queue, or about to be. -/
def onTheWay (m : Monitor n) : Nat := m.owed + ∑ t, arriving (m.place t) (m.pool.workers t)

/-- Who sleeps, and why that is safe. -/
structure SleepersCovered (m : Monitor n) : Prop where
  /-- Only a worker with nothing in its hands sleeps, or notifies. -/
  idle : ∀ t, m.place t ≠ .awake → m.pool.workers t = .idle
  covered : (∃ t, m.place t = .asleep) → m.pool.queue.waiting.card ≤ m.onTheWay
  /-- Behind `notify_all` nobody sleeps any more. -/
  announced : m.pool.stopping = true → m.announcing = false → ∀ t, m.place t ≠ .asleep
  flag : m.announcing = true → m.pool.stopping = true

theorem wake_ne {place : Fin n → Place} {woken : Option (Fin n)} {t : Fin n}
    (h : wake place woken t ≠ .awake) : wake place woken t = place t := by
  cases woken with
  | none => rfl
  | some t' =>
      by_cases ht : t = t'
      · subst ht
        exact absurd (Function.update_self ..) h
      · exact Function.update_of_ne ht ..

theorem wake_of_ne {place : Fin n → Place} {woken : Option (Fin n)} (hwakes : Wakes place woken)
    {t : Fin n} (h : place t ≠ .asleep) : wake place woken t = place t := by
  cases woken with
  | none => rfl
  | some t' =>
      refine Function.update_of_ne ?_ ..
      rintro rfl
      exact h hwakes

/-- Who sleeps behind a notification slept before it, and so somebody was woken up. -/
theorem asleep_of_wake {place : Fin n → Place} {woken : Option (Fin n)} (hwakes : Wakes place woken)
    {t : Fin n} (ht : wake place woken t = .asleep) :
    place t = .asleep ∧ ∃ t', woken = some t' ∧ place t' = .asleep := by
  have hsame : place t = .asleep := by
    rw [← @wake_ne n place woken t (by rw [ht]; simp), ht]
  refine ⟨hsame, ?_⟩
  cases woken with
  | none => exact absurd hsame (hwakes t)
  | some t' => exact ⟨t', rfl, hwakes⟩

/-- A worker that is woken up has nothing in its hands, and is on the way. -/
theorem arriving_wake {place : Fin n → Place} {workers : Fin n → Worker} {t : Fin n}
    (ht : place t = .asleep) (hidle : workers t = .idle) :
    ∑ t', arriving (wake place (some t) t') (workers t')
      = ∑ t', arriving (place t') (workers t') + 1 := by
  have hmove := sum_add_of_eq_off (i := t) (f := fun t' => arriving (place t') (workers t'))
    (g := fun t' => arriving (wake place (some t) t') (workers t'))
    fun t' hne => by rw [wake, Function.update_of_ne hne]
  simp only [wake, Function.update_self, ht, hidle, arriving_idle, arriving_asleep] at hmove
  exact hmove

theorem SleepersCovered.awake_of_busy (h : SleepersCovered m) {t : Fin n}
    (hbusy : m.pool.workers t ≠ .idle) :
    m.place t = .awake := by
  by_contra hne
  exact hbusy (h.idle t hne)

/-- What one worker has in its hands is another thing, and it is awake. -/
theorem arriving_worker {place : Fin n → Place} {workers : Fin n → Worker} {t : Fin n}
    (ht : place t = .awake) (w : Worker) :
    ∑ t', arriving (place t') (Function.update workers t w t') + arriving .awake (workers t)
      = ∑ t', arriving (place t') (workers t') + arriving .awake w := by
  have hmove := sum_add_of_eq_off (i := t) (f := fun t' => arriving (place t') (workers t'))
    (g := fun t' => arriving (place t') (Function.update workers t w t'))
    fun t' hne => by rw [Function.update_of_ne hne]
  simpa only [Function.update_self, ht] using hmove

theorem idle_worker {place : Fin n → Place} {workers : Fin n → Worker} {t : Fin n}
    (h : ∀ t', place t' ≠ .awake → workers t' = .idle) (ht : place t = .awake) (w : Worker) :
    ∀ t', place t' ≠ .awake → Function.update workers t w t' = .idle := by
  intro t' hne
  have hother : t' ≠ t := by
    rintro rfl
    exact hne ht
  rw [Function.update_of_ne hother]
  exact h t' hne

/-- A worker that is awake takes a task out of the queue, or is done with the one it has. -/
theorem SleepersCovered.worker (h : SleepersCovered m) {t : Fin n} {w : Worker}
    (hawake : m.place t = .awake) (hplace : m'.place = m.place) (howed : m'.owed = m.owed)
    (hworkers : m'.pool.workers = Function.update m.pool.workers t w)
    (hannouncing : m'.announcing = m.announcing) (hstop : m'.pool.stopping = m.pool.stopping)
    (hcard : m'.pool.queue.waiting.card + arriving .awake (m.pool.workers t)
      ≤ m.pool.queue.waiting.card + arriving .awake w) : SleepersCovered m' := by
  obtain ⟨hidle, hcovered, hannounced, hflag⟩ := h
  refine ⟨?_, fun hasleep => ?_, ?_, ?_⟩
  · rw [hplace, hworkers]
    exact idle_worker hidle hawake w
  · rw [hplace] at hasleep
    have hle := hcovered hasleep
    have hsum := @arriving_worker n m.place m.pool.workers t hawake w
    unfold onTheWay at hle ⊢
    rw [hplace, hworkers, howed]
    omega
  · rw [hstop, hannouncing, hplace]
    exact hannounced
  · rw [hstop, hannouncing]
    exact hflag

theorem sleepersCovered_moved (h : SleepersCovered m) {a : Act n} (hm : StepEffect m a m') :
    SleepersCovered m' := by
  have hcovered := h.covered
  unfold onTheWay at hcovered
  cases hm with
  | refused => exact h
  | joined => exact h
  | accepted hstop =>
      refine { h with covered := fun hasleep => ?_ }
      have hle := hcovered hasleep
      unfold onTheWay
      dsimp only
      rw [TaskQueue.waiting_push, Multiset.card_cons]
      omega
  | @notified woken howed hwakes =>
      refine ⟨fun t hne => ?_, ?_, fun hstop hann t hasleep => ?_, h.flag⟩
      · exact h.idle t (wake_ne hne ▸ hne)
      · rintro ⟨t, hasleep⟩
        obtain ⟨hbefore, t', rfl, ht'⟩ := asleep_of_wake hwakes hasleep
        -- one notification less, and one worker more
        have hle := hcovered ⟨t, hbefore⟩
        have hsum := arriving_wake ht' (h.idle t' (by rw [ht']; simp))
        unfold onTheWay
        dsimp only
        omega
      · exact h.announced hstop hann t (asleep_of_wake hwakes hasleep).1
  | stopped =>
      refine ⟨h.idle, h.covered, fun _ hann => ?_, fun _ => rfl⟩
      dsimp only at hann
      split at hann
      · rename_i hstop
        exact h.announced hstop hann
      · exact absurd hann (by simp)
  | announced hann =>
      have hnobody : ∀ t, (if m.place t = .asleep then Place.awake else m.place t) ≠ .asleep := by
        intro t
        split
        · simp
        · assumption
      refine ⟨fun t hne => ?_, fun ⟨t, ht⟩ => absurd ht (hnobody t), fun _ _ => hnobody, by simp⟩
      dsimp only at hne
      split at hne
      · exact absurd rfl hne
      · exact h.idle t hne
  | @slept t hawake hidle hstop hempty =>
      refine ⟨fun t' hne => ?_, fun _ => ?_, fun hstop' => ?_, h.flag⟩
      · by_cases ht : t' = t
        · rw [ht]
          exact hidle
        · dsimp only at hne
          rw [Function.update_of_ne ht] at hne
          exact h.idle t' hne
      · rw [TaskQueue.empty_iff.mp hempty]
        exact Nat.zero_le _
      · exact absurd (hstop.symm.trans hstop') (by simp)
  | @left t hawake hidle hstop hempty =>
      refine ⟨idle_worker h.idle hawake _, fun _ => ?_, h.announced, h.flag⟩
      rw [TaskQueue.empty_iff.mp hempty]
      exact Nat.zero_le _
  | @taken t task queue hawake hidle hpop =>
      refine h.worker hawake rfl rfl rfl rfl rfl ?_
      -- one task less, and one worker less
      have hcard := congrArg Multiset.card (TaskQueue.waiting_pop hpop)
      rw [Multiset.card_cons] at hcard
      simp only [hidle, arriving_idle, arriving_running]
      omega
  | @finished t task _ _ hrun =>
      refine h.worker (h.awake_of_busy (by simp [hrun])) rfl rfl rfl rfl rfl ?_
      simp only [hrun, arriving_idle, arriving_running]
      omega
  | @yielded t task fn _ _ hrun hfn =>
      refine h.worker (h.awake_of_busy (by simp [hrun])) rfl rfl rfl rfl rfl ?_
      simp only [hrun, arriving_running, arriving_yielded, le_refl]
  | @requeued t task hyield =>
      have hawake := h.awake_of_busy (t := t) (by simp [hyield])
      have hother : ∀ {t' : Fin n}, Function.update m.place t .notifying t' = .asleep →
          m.place t' = .asleep := by
        intro t' ht'
        by_cases ht : t' = t
        · rw [ht, Function.update_self] at ht'
          exact absurd ht' (by simp)
        · rwa [Function.update_of_ne ht] at ht'
      refine ⟨fun t' hne => ?_, ?_, fun hstop hann t' ht' => ?_, h.flag⟩
      · dsimp only at hne ⊢
        by_cases ht : t' = t
        · rw [ht, Function.update_self]
        · rw [Function.update_of_ne ht] at hne ⊢
          exact h.idle t' hne
      · rintro ⟨t', ht'⟩
        -- one task more, and a notification for it
        have hle := hcovered ⟨t', hother ht'⟩
        have hsum := sum_add_of_eq_off (i := t)
          (f := fun t' => arriving (m.place t') (m.pool.workers t'))
          (g := fun t' => arriving (Function.update m.place t .notifying t')
            (Function.update m.pool.workers t .idle t'))
          fun t' hne => by rw [Function.update_of_ne hne, Function.update_of_ne hne]
        simp only [Function.update_self, hawake, hyield, arriving_notifying, arriving_yielded]
          at hsum
        unfold onTheWay
        dsimp only
        rw [TaskQueue.waiting_push, Multiset.card_cons]
        omega
      · exact h.announced hstop hann t' (hother ht')
  | @notifiedBack t woken hnotifying hwakes =>
      have hidle := h.idle t (by simp [hnotifying])
      have hsame : ∀ {t' : Fin n}, Function.update (wake m.place woken) t .awake t' ≠ .awake →
          wake m.place woken t' = Function.update (wake m.place woken) t .awake t' := by
        intro t' hne
        by_cases ht : t' = t
        · rw [ht, Function.update_self] at hne
          exact absurd rfl hne
        · rw [Function.update_of_ne ht]
      have hslept : ∀ {t' : Fin n}, Function.update (wake m.place woken) t .awake t' = .asleep →
          wake m.place woken t' = .asleep := fun ht' => (hsame (by simp [ht'])).trans ht'
      refine ⟨fun t' hne => ?_, ?_, fun hstop hann t' ht' => ?_, h.flag⟩
      · have hne' : wake m.place woken t' ≠ .awake := by
          rw [hsame hne]
          exact hne
        exact h.idle t' (wake_ne hne' ▸ hne')
      · rintro ⟨t', ht'⟩
        obtain ⟨hbefore, t'', rfl, ht''⟩ := asleep_of_wake hwakes (hslept ht')
        have hle := hcovered ⟨t', hbefore⟩
        have hsum := arriving_wake ht'' (h.idle t'' (by rw [ht'']; simp))
        have hplace := wake_of_ne hwakes (t := t) (by simp [hnotifying])
        -- the notification is spent, and its sender is on the way itself
        have hsender := sum_add_of_eq_off (i := t)
          (f := fun t' => arriving (wake m.place (some t'') t') (m.pool.workers t'))
          (g := fun t' => arriving (Function.update (wake m.place (some t'')) t .awake t')
            (m.pool.workers t')) fun t' hne => by rw [Function.update_of_ne hne]
        simp only [Function.update_self, hplace, hnotifying, hidle, arriving_idle,
          arriving_notifying] at hsender
        unfold onTheWay
        dsimp only
        omega
      · exact h.announced hstop hann t' (asleep_of_wake hwakes (hslept ht')).1
  | @stirred t hasleep =>
      have hidle := h.idle t (by simp [hasleep])
      refine ⟨fun t' hne => ?_, ?_, fun hstop hann t' ht' => ?_, h.flag⟩
      · exact h.idle t' (@wake_ne n m.place (some t) t' hne ▸ hne)
      · rintro ⟨t', ht'⟩
        have hle := hcovered ⟨t, hasleep⟩
        have hsum := arriving_wake hasleep hidle
        simp only [wake] at hsum
        unfold onTheWay
        dsimp only
        omega
      · exact h.announced hstop hann t hasleep

theorem sleepersCovered_reachable {policy : SchedulingPolicy} {aging : Bool} {threshold : Nat}
    (h : (system n policy aging threshold).Reachable m) : SleepersCovered m := by
  refine h.invariant (I := SleepersCovered) ?_ fun _ _ _ hm _ hs =>
    sleepersCovered_moved hm (moved hs)
  rintro m rfl
  exact ⟨fun t h => absurd rfl h, fun ⟨t, ht⟩ => absurd ht (by simp), by simp, by simp⟩

/-- No wake-up of the pool is lost, whatever the order in which notifications arrive and whom
they wake up. As long as some worker sleeps, there are at least as many on the way as there
are tasks in the queue; so when nobody owes a notification, and every worker that has nothing
in its hands sleeps, a sleeper means an empty queue. And once `shutdown` has notified all,
nobody sleeps. -/
theorem no_wakeup_lost {policy : SchedulingPolicy} {aging : Bool} {threshold : Nat}
    (h : (system n policy aging threshold).Reachable m) :
    ((∃ t, m.place t = .asleep) → m.pool.queue.waiting.card ≤ m.onTheWay)
      ∧ (m.owed = 0 → (∀ t, m.pool.workers t = .idle → m.place t = .asleep) →
          (∃ t, m.place t = .asleep) → m.pool.queue.empty = true)
      ∧ (m.pool.stopping = true → m.announcing = false → ∀ t, m.place t ≠ .asleep)
      ∧ (ThreadPool.system n policy aging threshold).Reachable m.pool := by
  have hsettled := sleepersCovered_reachable h
  refine ⟨hsettled.covered, fun howed hrest hasleep => ?_, hsettled.announced, pool_reachable h⟩
  have hnobody : ∑ t, arriving (m.place t) (m.pool.workers t) = 0 := by
    refine Finset.sum_eq_zero fun t _ => ?_
    cases hw : m.pool.workers t with
    | idle => rw [hrest t hw, arriving_asleep]
    | _ => rw [hsettled.awake_of_busy (t := t) (by simp [hw])]; rfl
  have hle := hsettled.covered hasleep
  rw [onTheWay, howed, hnobody] at hle
  exact TaskQueue.empty_iff.mpr (Multiset.card_eq_zero.mp (Nat.le_zero.mp hle))

/-- The two workers of the runs below. -/
def first : Fin 2 := ⟨0, Nat.zero_lt_two⟩

/-- The other of two workers. -/
def second : Fin 2 := ⟨1, Nat.one_lt_two⟩

/-- Both workers sleep when two tasks come. Both notifications are sent when the second one
has been pushed, and the first one to get up takes one task and comes back for the other. -/
def forestalled : List (Act 2) :=
  [.enter first, .enter second, .submit 0 false .normal true, .submit 0 false .normal true,
    .notify (some second), .enter second, .run second, .enter second, .run second, .enter second,
    .notify (some first), .enter first]

theorem no_wakeup_lost_forestalled :
    ∃ m, (system 2 .fcfs false 0).Reachable m ∧ m.pool.accepted = 2
      ∧ (∀ t, m.place t = .asleep) ∧ m.pool.queue.empty = true := by
  obtain ⟨m, hreach, hcount, howed, hasleep⟩ := System.exists_reachableBy
    (p := fun m => m.pool.accepted = 2 ∧ m.owed = 0 ∧ ∀ t, m.place t = .asleep)
    (show (system 2 .fcfs false 0).Reachable _ from .init rfl)
    forestalled (by decide +kernel) (by decide +kernel)
  exact ⟨m, hreach, hcount, hasleep,
    (no_wakeup_lost hreach).2.1 howed (fun t _ => hasleep t) ⟨0, hasleep 0⟩⟩

/-! ## How much is left to do -/

/-- The steps of the pool itself, and not of who calls it. -/
def Act.works : Act n → Bool
  | .submit .. => false
  | .shutdown => false
  | .join => false
  | _ => true

/-- How many steps a worker has before it is at the mutex. -/
def placeEffort : Place → Nat
  | .awake => 0
  | .asleep => 1
  | .notifying => 1

/-- A task that yields is called, put back and taken up again, with a notification between. -/
def workerEffort : Worker → Nat
  | .idle => 1
  | .running task => 4 * task.run.yields + 2
  | .yielded task => 4 * task.run.yields + 5
  | .exited => 0

/-- As many steps as the pool can take at most, once it is stopping. -/
def work (m : Monitor n) : Nat :=
  m.owed + m.announcing.toNat + ∑ t, placeEffort (m.place t) + ∑ t, workerEffort (m.pool.workers t)
    + (m.pool.queue.waiting.map fun fn => 4 * fn.yields + 2).sum

theorem wake_effort {place : Fin n → Place} {woken : Option (Fin n)} :
    ∑ t, placeEffort (wake place woken t) ≤ ∑ t, placeEffort (place t) := by
  refine Finset.sum_le_sum fun t _ => ?_
  by_cases hne : wake place woken t = .awake
  · rw [hne]
    exact Nat.zero_le _
  · rw [wake_ne hne]

/-- A stopping pool stays so, and each of its own steps is one less to take. -/
theorem work_moved {a : Act n} (hstop : m.pool.stopping = true) (hm : StepEffect m a m') :
    m'.pool.stopping = true ∧ m'.work + (if a.works then 1 else 0) ≤ m.work := by
  cases hm with
  | refused => exact ⟨hstop, Nat.le_refl _⟩
  | joined => exact ⟨hstop, Nat.le_refl _⟩
  | accepted hgoing => exact absurd (hstop.symm.trans hgoing) (by simp)
  | slept _ _ hgoing => exact absurd (hstop.symm.trans hgoing) (by simp)
  | stopped =>
      refine ⟨rfl, ?_⟩
      rw [if_pos hstop]
      exact Nat.le_refl _
  | @notified woken howed =>
      refine ⟨hstop, ?_⟩
      have hplace := @wake_effort n m.place woken
      simp only [work, Act.works, if_true]
      omega
  | announced hann =>
      refine ⟨hstop, ?_⟩
      have hplace : ∑ t, placeEffort (if m.place t = .asleep then .awake else m.place t)
          ≤ ∑ t, placeEffort (m.place t) := by
        refine Finset.sum_le_sum fun t _ => ?_
        split
        · exact Nat.zero_le _
        · exact Nat.le_refl _
      simp only [work, Act.works, if_true, hann, Bool.toNat_true, Bool.toNat_false]
      omega
  | @left t _ hidle =>
      refine ⟨hstop, ?_⟩
      have hworker := sum_weight_update workerEffort m.pool.workers t .exited
      rw [hidle] at hworker
      simp only [work, Act.works, if_true]
      simp only [workerEffort] at hworker ⊢
      omega
  | @taken t task queue _ hidle hpop =>
      refine ⟨hstop, ?_⟩
      have hworker := sum_weight_update workerEffort m.pool.workers t (.running task)
      rw [hidle] at hworker
      simp only [work, Act.works, if_true, TaskQueue.waiting_pop hpop, Multiset.map_cons,
        Multiset.sum_cons]
      simp only [workerEffort] at hworker ⊢
      omega
  | @finished t task _ _ hrun =>
      refine ⟨hstop, ?_⟩
      have hworker := sum_weight_update workerEffort m.pool.workers t .idle
      rw [hrun] at hworker
      simp only [work, Act.works, if_true]
      simp only [workerEffort] at hworker ⊢
      omega
  | @yielded t task fn _ _ hrun hfn =>
      refine ⟨hstop, ?_⟩
      have hworker :=
        sum_weight_update workerEffort m.pool.workers t (.yielded { task with run := fn })
      rw [hrun] at hworker
      simp only [work, Act.works, if_true]
      simp only [workerEffort] at hworker ⊢
      omega
  | @requeued t task hyield =>
      refine ⟨hstop, ?_⟩
      have hworker := sum_weight_update workerEffort m.pool.workers t .idle
      have hplace := sum_weight_update placeEffort m.place t .notifying
      rw [hyield] at hworker
      simp only [work, Act.works, if_true, TaskQueue.waiting_push, Multiset.map_cons,
        Multiset.sum_cons]
      simp only [workerEffort, placeEffort] at hworker hplace ⊢
      omega
  | @notifiedBack t woken hnotifying hwakes =>
      refine ⟨hstop, ?_⟩
      have hsender := sum_weight_update placeEffort (wake m.place woken) t .awake
      have hplace := @wake_effort n m.place woken
      rw [wake_of_ne hwakes (by simp [hnotifying]), hnotifying] at hsender
      simp only [work, Act.works, if_true]
      simp only [placeEffort] at hsender hplace ⊢
      omega
  | @stirred t hasleep =>
      refine ⟨hstop, ?_⟩
      have hplace := sum_weight_update placeEffort m.place t .awake
      rw [hasleep] at hplace
      simp only [work, Act.works, if_true]
      simp only [placeEffort] at hplace ⊢
      omega

theorem work_run {policy : SchedulingPolicy} {aging : Bool} {threshold : Nat}
    (hstop : m.pool.stopping = true) {as : List (Act n)}
    (hrun : (system n policy aging threshold).run m as = some m') :
    m'.pool.stopping = true ∧ m'.work + as.countP Act.works ≤ m.work :=
  (system n policy aging threshold).run_within_budget (I := fun m => m.pool.stopping = true)
    (fun _ _ _ hstop hs => work_moved hstop (moved hs)) hstop hrun

/-- A stopping pool that can take no step of its own has no worker left. -/
theorem exited_of_stuck (h : SleepersCovered m) (hstop : m.pool.stopping = true)
    (hstuck : ∀ a : Act n, a.works = true → step m a = none) :
    m.announcing = false ∧ ∀ t, m.pool.workers t = .exited := by
  have hann : m.announcing = false := by
    rw [Bool.eq_false_iff]
    intro hann
    have hnone := hstuck .notifyAll rfl
    rw [step, if_pos hann] at hnone
    exact absurd hnone (by simp)
  have hup := h.announced hstop hann
  refine ⟨hann, fun t => ?_⟩
  have hawake : m.place t = .awake := by
    cases hplace : m.place t with
    | awake => rfl
    | asleep => exact absurd hplace (hup t)
    | notifying =>
        have hnone := hstuck (.notifyBack t none) rfl
        rw [step, if_pos ⟨hplace, hup⟩] at hnone
        exact absurd hnone (by simp)
  cases hw : m.pool.workers t with
  | exited => rfl
  | idle =>
      have hnone := hstuck (.enter t) rfl
      rw [step, if_pos ⟨hawake, hw⟩, if_pos (.inl hstop), ThreadPool.step,
        if_pos ⟨hw, .inl hstop⟩] at hnone
      exact absurd hnone (by simp)
  | running task =>
      have hnone := hstuck (.run t) rfl
      rw [step, ThreadPool.step, hw] at hnone
      exact absurd hnone (by simp)
  | yielded task =>
      have hnone := hstuck (.requeue t) rfl
      rw [step, ThreadPool.step, hw] at hnone
      exact absurd hnone (by simp)

/-- `shutdown` comes to its end. Once the pool is stopping, its workers and whoever still owes
a notification can take only so many steps, whatever they do and whatever is tried on the
pool meanwhile; and when none of them can take another, every worker has left, the join is
through, and every task that was accepted has been finished exactly once. -/
theorem shutdown_returns {policy : SchedulingPolicy} {aging : Bool} {threshold : Nat}
    (hn : 0 < n) (h : (system n policy aging threshold).Reachable m)
    (hstop : m.pool.stopping = true) {as : List (Act n)}
    (hrun : (system n policy aging threshold).run m as = some m') :
    as.countP Act.works ≤ m.work
      ∧ ((∀ a : Act n, a.works = true → step m' a = none) →
          (∀ t, m'.pool.workers t = .exited) ∧ step m' .join = some m'
            ∧ ∀ id < m'.pool.accepted, m'.pool.finished.count id = 1) := by
  obtain ⟨hstop', hwork⟩ := work_run hstop hrun
  have hreach' := System.reachable_of_run h hrun
  refine ⟨by omega, fun hstuck => ?_⟩
  obtain ⟨hann, hleft⟩ := exited_of_stuck (sleepersCovered_reachable hreach') hstop' hstuck
  refine ⟨hleft, ?_, fun id hid => ?_⟩
  · rw [step, if_neg (by simp [hann]), ThreadPool.step, if_pos ⟨hstop', hleft⟩]
    rfl
  · have hfinished :=
      ((ThreadPool.noTaskLost_reachable hn (pool_reachable hreach')).drained hleft).2
    rw [← Multiset.coe_count, hfinished]
    exact Multiset.count_eq_one_of_mem (Multiset.nodup_range _) (Multiset.mem_range.mpr hid)

theorem stuck_of_exited (howed : m.owed = 0) (hann : m.announcing = false)
    (hplace : ∀ t, m.place t = .awake) (hleft : ∀ t, m.pool.workers t = .exited) (a : Act n)
    (ha : a.works = true) : step m a = none := by
  cases a with
  | submit => exact absurd ha (by simp [Act.works])
  | shutdown => exact absurd ha (by simp [Act.works])
  | join => exact absurd ha (by simp [Act.works])
  | notify woken => simp [step, howed]
  | notifyAll => simp [step, hann]
  | enter t => simp [step, hleft]
  | run t => simp [step, ThreadPool.step, hleft]
  | requeue t => simp [step, ThreadPool.step, hleft]
  | notifyBack t woken => simp [step, hplace]
  | spurious t => simp [step, hplace]

/-- One worker sleeps, and the other has a task in its hands that is going to yield, when the
pool is stopped. -/
def stoppedAsleep : List (Act 2) :=
  [.enter second, .submit 1 false .normal true, .enter first, .notify (some second),
    .enter second, .run first, .shutdown]

/-- The one that slept leaves before the task is put back. -/
def leaving : List (Act 2) :=
  [.notifyAll, .submit 0 false .high false, .enter second, .requeue first,
    .notifyBack first none, .enter first, .run first, .enter first]

theorem shutdown_returns_asleep :
    ∃ m m', (system 2 .fcfs false 0).Reachable m ∧ m.place 1 = .asleep
      ∧ (system 2 .fcfs false 0).run m leaving = some m' ∧ 7 ≤ m.work
      ∧ step m' .join = some m' ∧ m'.pool.finished.count 0 = 1 := by
  obtain ⟨m, hreach, hstop, hasleep, hend⟩ := System.exists_reachableBy
    (p := fun m => m.pool.stopping = true ∧ m.place 1 = .asleep
      ∧ ((system 2 .fcfs false 0).run m leaving).any (fun m' => decide (m'.owed = 0
        ∧ m'.announcing = false ∧ (∀ t, m'.place t = .awake)
        ∧ (∀ t, m'.pool.workers t = .exited) ∧ m'.pool.accepted = 1)) = true)
    (show (system 2 .fcfs false 0).Reachable _ from .init rfl)
    stoppedAsleep (by decide +kernel) (by decide +kernel)
  obtain ⟨hsome, hm'⟩ := (Option.any_eq_true_iff_get ..).mp hend
  have hrun := (Option.some_get hsome).symm
  obtain ⟨howed, hann, hplace, hleft, hone⟩ := of_decide_eq_true hm'
  obtain ⟨hwork, hdone⟩ := shutdown_returns (by decide) hreach hstop hrun
  obtain ⟨-, hjoin, hfinished⟩ := hdone (stuck_of_exited howed hann hplace hleft)
  exact ⟨m, _, hreach, hasleep, hrun, hwork, hjoin, hfinished 0 (by omega)⟩

end KvStore.Pool.Monitor
