import KvStore.Proof.Scheduling

/-!
# How long a task waits

That is a matter of what a promotion takes. It takes the oldest task of the lowest level,
so a task of the lowest level moves up by one place with every promotion, whatever else
is pushed. In the middle there is no such bound: a promotion goes to the level below, and
everything else to the level above, for as long as there are tasks in both
(`extremes_first`).

The bounds are counted in pops that may still go to others, and every pop that does uses
one up (`returned_within`).
-/

namespace KvStore.Pool.PriorityQueue

open Lib

variable {φ : Type}

/-- What the successful pops of a run return. -/
def returned : PriorityQueue φ → List (Act φ) → List (Task φ)
  | _, [] => []
  | q, .push task :: as => (q.push task).returned as
  | q, .pop :: as =>
      match q.pop with
      | none => q.returned as
      | some (task, q') => task :: q'.returned as

/-- How many tasks of a priority are pushed in a run. -/
def pushes (priority : TaskPriority) : List (Act φ) → Nat
  | [] => 0
  | .push task :: as => (if task.priority = priority then 1 else 0) + pushes priority as
  | .pop :: as => pushes priority as

/-- A task stands in its level behind `ahead` others. -/
def Stands (q : PriorityQueue φ) (level : Fin kPriorityLevels) (task : Task φ) (ahead : Nat) :
    Prop :=
  ∃ front back, q.levels level = front ++ task :: back ∧ front.length = ahead

section Stands

variable {q : PriorityQueue φ} {level : Fin kPriorityLevels} {task : Task φ} {ahead : Nat}

theorem stands_push (q : PriorityQueue φ) (task : Task φ) :
    Stands (q.push task) task.priority.level (q.stamp task) (q.levels task.priority.level).length :=
  ⟨_, [], push_levels_self q task, rfl⟩

theorem Stands.ne_nil (h : Stands q level task ahead) : q.levels level ≠ [] := by
  obtain ⟨front, back, hlevel, -⟩ := h
  rw [hlevel]
  simp

/-- What is pushed stands behind it. -/
theorem Stands.push (h : Stands q level task ahead) (t : Task φ) :
    Stands (q.push t) level task ahead := by
  obtain ⟨front, back, hlevel, hahead⟩ := h
  by_cases ht : level = t.priority.level
  · subst ht
    exact ⟨front, back ++ [q.stamp t], by rw [push_levels_self, hlevel]; simp, hahead⟩
  · exact ⟨front, back, by rw [push_levels_of_ne _ ht, hlevel], hahead⟩

/-- A task that is taken from its level is the task itself, or one ahead of it. -/
theorem Stands.taken (h : Stands q level task ahead) {l : Fin kPriorityLevels} {t : Task φ}
    {q' : PriorityQueue φ} (htaken : Taken q l t q') :
    (l ≠ level ∧ Stands q' level task ahead)
      ∨ (l = level ∧ (t = task ∨ ∃ fewer, ahead = fewer + 1 ∧ Stands q' level task fewer)) := by
  obtain ⟨front, back, hlevel, rfl⟩ := h
  by_cases hl : l = level
  · subst hl
    refine Or.inr ⟨rfl, ?_⟩
    have hfront := htaken.front
    rw [hlevel] at hfront
    cases front with
    | nil => exact Or.inl (List.cons.inj hfront).1.symm
    | cons t' front =>
        exact Or.inr ⟨front.length, rfl, front, back, (List.cons.inj hfront).2.symm, rfl⟩
  · exact Or.inl ⟨hl, front, back, by rw [htaken.others level (Ne.symm hl), hlevel], rfl⟩

/-- Somebody can be served. -/
theorem Stands.pop (h : Stands q level task ahead) : ∃ t q', q.pop = some (t, q') := by
  cases hpop : q.pop with
  | some r => exact ⟨r.1, r.2, rfl⟩
  | none =>
      have hzero := pop_none.mp hpop
      rw [q.counted, Finset.sum_eq_zero_iff] at hzero
      exact absurd (List.length_eq_zero_iff.mp (hzero level (Finset.mem_univ _))) h.ne_nil

end Stands

/-- The policy of a queue does not change. -/
def Ages (q : PriorityQueue φ) (agingThreshold : Nat) : Prop :=
  q.aging = true ∧ q.agingThreshold = agingThreshold

theorem Ages.taken {q q' : PriorityQueue φ} {agingThreshold : Nat} {level : Fin kPriorityLevels}
    {task : Task φ} (h : Ages q agingThreshold) (htaken : Taken q level task q') :
    Ages q' agingThreshold :=
  ⟨htaken.aging.trans h.1, htaken.agingThreshold.trans h.2⟩

theorem ages_reachable {agingThreshold : Nat} {s : History φ}
    (h : (system φ true agingThreshold).Reachable s) (hpos : 1 ≤ agingThreshold) :
    Ages s.queue agingThreshold := by
  have hk := keeps_reachable h
  refine ⟨hk.policy, hk.threshold.trans (if_neg ?_)⟩
  omega

/--
**Waiting.** Let `C q as ahead` be how many pops may go to others before a task that
stands behind `ahead` others, on the way through `as`. If a push does not raise it, and a
pop that goes to another lowers it, then the task is among the next that are returned,
and at most so many come before it.
-/
theorem returned_within {task : Task φ} {level : Fin kPriorityLevels} {agingThreshold : Nat}
    {C : PriorityQueue φ → List (Act φ) → Nat → Nat}
    (hpush : ∀ q t as ahead, C (q.push t) as ahead ≤ C q (.push t :: as) ahead)
    (hpop : ∀ {q q' t ahead} as, Ages q agingThreshold → Stands q level task ahead →
      Popped q t q' → t = task ∨ ∃ ahead', Stands q' level task ahead'
        ∧ C q' as ahead' < C q (.pop :: as) ahead)
    {q : PriorityQueue φ} {as : List (Act φ)} {ahead n : Nat} (hages : Ages q agingThreshold)
    (hstands : Stands q level task ahead) (hcost : C q as ahead ≤ n)
    (hlen : n < (q.returned as).length) : task ∈ (q.returned as).take (n + 1) := by
  induction as generalizing q ahead n with
  | nil => exact absurd hlen (Nat.not_lt_zero n)
  | cons a as ih =>
      cases a with
      | push t =>
          exact ih hages (hstands.push t) ((hpush q t as ahead).trans hcost) hlen
      | pop =>
          obtain ⟨t, q', hq⟩ := hstands.pop
          obtain ⟨l, htaken⟩ := (pop_effect hq).taken
          have hreturned : q.returned (.pop :: as) = t :: q'.returned as := by rw [returned, hq]
          rw [hreturned, List.length_cons] at hlen
          rw [hreturned, List.take_succ_cons]
          rcases hpop as hages hstands (pop_effect hq) with rfl | ⟨ahead', hstands', hless⟩
          · exact List.mem_cons_self ..
          · -- one pop has gone to another
            obtain ⟨m, rfl⟩ : ∃ m, n = m + 1 := Nat.exists_eq_add_one_of_ne_zero (by omega)
            exact List.mem_cons_of_mem _
              (ih (hages.taken htaken) hstands' (by omega) (by omega))

/-- While something waits below the highest level, a promotion that is due is made. -/
theorem not_due_of_served {q : PriorityQueue φ} {agingThreshold : Nat} {level : Fin kPriorityLevels}
    {task : Task φ} {ahead : Nat} (h : Ages q agingThreshold) (hstands : Stands q level task ahead)
    (hlevel : level ≠ TaskPriority.high.level)
    (hturn : q.aging = true → q.agingThreshold ≤ q.servesSincePromotion →
      ∀ l, l ≠ TaskPriority.high.level → q.levels l = []) :
    q.servesSincePromotion < agingThreshold := by
  by_contra hdue
  exact hstands.ne_nil (hturn h.1 (by rw [h.2]; omega) level hlevel)

theorem lt_low_level {l : Fin kPriorityLevels} (h : l ≠ TaskPriority.low.level) :
    l < TaskPriority.low.level := by
  revert l
  decide

/-- One turn less until the promotion, or one promotion less. -/
theorem low_pop {q q' : PriorityQueue φ} {agingThreshold ahead : Nat} {task t : Task φ}
    (hages : Ages q agingThreshold) (hstands : Stands q TaskPriority.low.level task ahead)
    (hpop : Popped q t q') :
    t = task ∨ ∃ ahead', Stands q' TaskPriority.low.level task ahead'
      ∧ ahead' * (agingThreshold + 1) + (agingThreshold - q'.servesSincePromotion)
        < ahead * (agingThreshold + 1) + (agingThreshold - q.servesSincePromotion) := by
  cases hpop with
  | served htaken _ hturn _ hsince =>
      have hnotdue := not_due_of_served hages hstands (by decide) hturn
      rw [hsince]
      rcases hstands.taken htaken with ⟨-, hstands'⟩ | ⟨-, rfl | ⟨fewer, rfl, hstands'⟩⟩
      · exact Or.inr ⟨ahead, hstands', by omega⟩
      · exact Or.inl rfl
      · refine Or.inr ⟨fewer, hstands', ?_⟩
        rw [Nat.add_mul]
        omega
  | promoted htaken hlower _ _ hdue _ hsince =>
      rw [hages.2] at hdue
      rw [hsince]
      rcases hstands.taken htaken with ⟨hl, -⟩ | ⟨-, rfl | ⟨fewer, rfl, hstands'⟩⟩
      · exact absurd (hlower _ (lt_low_level hl)) hstands.ne_nil
      · exact Or.inl rfl
      · refine Or.inr ⟨fewer, hstands', ?_⟩
        rw [Nat.add_mul]
        omega

/-- A promotion is never of the highest level, and a turn is not of the lowest while one waits in
the middle. -/
theorem middle_level {l : Fin kPriorityLevels} (h : l ≠ TaskPriority.normal.level) :
    l < TaskPriority.normal.level ∧ l = TaskPriority.high.level
      ∨ TaskPriority.normal.level < l ∧ l = TaskPriority.low.level := by
  revert l
  decide

/-- No level grows when a task is taken. -/
theorem Taken.length_le {q q' : PriorityQueue φ} {level : Fin kPriorityLevels} {task : Task φ}
    (h : Taken q level task q') (l : Fin kPriorityLevels) :
    (q'.levels l).length ≤ (q.levels l).length := by
  by_cases hl : l = level
  · rw [hl, h.front]
    exact Nat.le_succ _
  · rw [h.others l hl]

/-- In the middle: one turn less until the promotion, or one task less that it can be given to. -/
theorem normal_pop_below {q q' : PriorityQueue φ} {agingThreshold ahead : Nat} {task t : Task φ}
    (hages : Ages q agingThreshold) (hstands : Stands q TaskPriority.normal.level task ahead)
    (hpop : Popped q t q') (later : Nat) :
    t = task ∨ ∃ ahead', Stands q' TaskPriority.normal.level task ahead'
      ∧ (ahead' + (q'.levels TaskPriority.low.level).length + later) * (agingThreshold + 1)
          + (agingThreshold - q'.servesSincePromotion)
        < (ahead + (q.levels TaskPriority.low.level).length + later) * (agingThreshold + 1)
          + (agingThreshold - q.servesSincePromotion) := by
  -- what can be taken before the task does not grow, and with a promotion it shrinks
  have hfewer {a l a' l' : Nat} (hle : a' + l' + 1 ≤ a + l) :
      (a' + l' + later) * (agingThreshold + 1) + agingThreshold
        < (a + l + later) * (agingThreshold + 1) := by
    have hmul := Nat.mul_le_mul_right (agingThreshold + 1)
      (show a' + l' + later + 1 ≤ a + l + later by omega)
    rw [Nat.add_mul (a' + l' + later), Nat.one_mul] at hmul
    omega
  cases hpop with
  | served htaken _ hturn _ hsince =>
      have hnotdue := not_due_of_served hages hstands (by decide) hturn
      have hlow := htaken.length_le TaskPriority.low.level
      rw [hsince]
      rcases hstands.taken htaken with ⟨-, hstands'⟩ | ⟨-, rfl | ⟨fewer, rfl, hstands'⟩⟩
      · refine Or.inr ⟨ahead, hstands', ?_⟩
        have hmul := Nat.mul_le_mul_right (agingThreshold + 1)
          (show ahead + (q'.levels TaskPriority.low.level).length + later
            ≤ ahead + (q.levels TaskPriority.low.level).length + later by omega)
        omega
      · exact Or.inl rfl
      · refine Or.inr ⟨fewer, hstands', ?_⟩
        have hless := hfewer (show fewer + (q'.levels TaskPriority.low.level).length + 1
          ≤ fewer + 1 + (q.levels TaskPriority.low.level).length by omega)
        omega
  | promoted htaken _ hlevel _ hdue _ hsince =>
      rw [hages.2] at hdue
      rw [hsince]
      rcases hstands.taken htaken with ⟨hl, hstands'⟩ | ⟨hl, rfl | ⟨fewer, rfl, hstands'⟩⟩
      · obtain ⟨-, rfl⟩ := (middle_level hl).resolve_left fun h => hlevel h.2
        refine Or.inr ⟨ahead, hstands', ?_⟩
        have hless := hfewer (show ahead + (q'.levels TaskPriority.low.level).length + 1
          ≤ ahead + (q.levels TaskPriority.low.level).length by
            rw [htaken.front, List.length_cons]
            omega)
        omega
      · exact Or.inl rfl
      · have hlow := htaken.length_le TaskPriority.low.level
        refine Or.inr ⟨fewer, hstands', ?_⟩
        have hless := hfewer (show fewer + (q'.levels TaskPriority.low.level).length + 1
          ≤ fewer + 1 + (q.levels TaskPriority.low.level).length by omega)
        omega

/-- In the middle: one task less that a turn can be given to, or a promotion, which is not due
twice in a row. -/
theorem normal_pop_above {q q' : PriorityQueue φ} {agingThreshold ahead : Nat} {task t : Task φ}
    (hages : Ages q agingThreshold) (hpos : 1 ≤ agingThreshold)
    (hstands : Stands q TaskPriority.normal.level task ahead) (hpop : Popped q t q')
    (later : Nat) :
    t = task ∨ ∃ ahead', Stands q' TaskPriority.normal.level task ahead'
      ∧ (ahead' + (q'.levels TaskPriority.high.level).length + later) * 2
          + (if agingThreshold ≤ q'.servesSincePromotion then 1 else 0)
        < (ahead + (q.levels TaskPriority.high.level).length + later) * 2
          + (if agingThreshold ≤ q.servesSincePromotion then 1 else 0) := by
  have hhigh := hpop.taken.elim fun _ htaken => htaken.length_le TaskPriority.high.level
  cases hpop with
  | served htaken hhigher hturn _ hsince =>
      have hnotdue := not_due_of_served hages hstands (by decide) hturn
      rw [if_neg (Nat.not_le.mpr hnotdue)]
      rcases hstands.taken htaken with ⟨hl, hstands'⟩ | ⟨-, rfl | ⟨fewer, rfl, hstands'⟩⟩
      · obtain ⟨-, rfl⟩ := (middle_level hl).resolve_right fun h =>
          hstands.ne_nil (hhigher _ h.1)
        refine Or.inr ⟨ahead, hstands', ?_⟩
        rw [htaken.front, List.length_cons]
        split <;> omega
      · exact Or.inl rfl
      · refine Or.inr ⟨fewer, hstands', ?_⟩
        split <;> omega
  -- it was due and is made, so the next one is a turn
  | promoted htaken _ _ _ hdue _ hsince =>
      rw [hages.2] at hdue
      rw [hsince, if_pos hdue, if_neg (by omega)]
      rcases hstands.taken htaken with ⟨-, hstands'⟩ | ⟨-, rfl | ⟨fewer, rfl, hstands'⟩⟩
      · exact Or.inr ⟨ahead, hstands', by omega⟩
      · exact Or.inl rfl
      · exact Or.inr ⟨fewer, hstands', by omega⟩

/-- What is pushed to a level makes it longer by one. -/
theorem length_push (q : PriorityQueue φ) (t : Task φ) (priority : TaskPriority) :
    ((q.push t).levels priority.level).length
      = (q.levels priority.level).length + (if t.priority = priority then 1 else 0) := by
  by_cases h : t.priority = priority
  · rw [if_pos h, ← h, push_levels_self, List.length_append, List.length_singleton]
  · rw [if_neg h, push_levels_of_ne q fun heq => h (level_injective heq).symm, Nat.add_zero]

/-- What is there of a priority, and what is still to come, is the same before and after a push. -/
theorem arriving_push (q : PriorityQueue φ) (t : Task φ) (priority : TaskPriority)
    (as : List (Act φ)) :
    ((q.push t).levels priority.level).length + pushes priority as
      = (q.levels priority.level).length + pushes priority (.push t :: as) := by
  rw [length_push, pushes, Nat.add_assoc]

/--
**The lowest priority does not starve.** A task that was pushed behind `p` others of the
lowest priority is returned by one of the next `(p + 1) * (T + 1)` successful pops,
whatever is pushed in the meantime.
-/
theorem low_returned {agingThreshold : Nat} (hpos : 1 ≤ agingThreshold) {s : History φ}
    (h : (system φ true agingThreshold).Reachable s) (task : Task φ) (hlow : task.priority = .low)
    (as : List (Act φ))
    (hpops : ((s.queue.levels TaskPriority.low.level).length + 1) * (agingThreshold + 1)
      ≤ ((s.queue.push task).returned as).length) :
    s.queue.stamp task ∈ ((s.queue.push task).returned as).take
      (((s.queue.levels TaskPriority.low.level).length + 1) * (agingThreshold + 1)) := by
  have hages : Ages (s.queue.push task) agingThreshold := ages_reachable h hpos
  have hstands := stands_push s.queue task
  rw [hlow] at hstands
  rw [Nat.add_mul, Nat.one_mul, ← Nat.add_assoc] at hpops ⊢
  refine returned_within
    (C := fun q _ ahead => ahead * (agingThreshold + 1) + (agingThreshold - q.servesSincePromotion))
    (fun _ _ _ _ => Nat.le_refl _) (fun _ hages hstands hpop => low_pop hages hstands hpop)
    hages hstands ?_ hpops
  omega

/-- Two turns for tasks that came later, and then the promotion. -/
theorem low_returned_third :
    ({ run := 2, priority := .low, sequence := 1 } : Task Nat)
      ∈ ((PriorityQueue.init true 2 : PriorityQueue Nat).push
        { run := 2, priority := .low }).returned
          [.push { run := 0, priority := .high }, .push { run := 1, priority := .normal },
            .push { run := 0, priority := .high }, .pop, .pop, .pop] := by
  have hreach : (system Nat true 2).Reachable { queue := .init true 2 } := .init rfl
  have hmem := low_returned (by decide) hreach { run := 2, priority := .low } rfl
    [.push { run := 0, priority := .high }, .push { run := 1, priority := .normal },
      .push { run := 0, priority := .high }, .pop, .pop, .pop] (by decide +kernel)
  exact List.mem_of_mem_take hmem

section Normal

variable {agingThreshold : Nat} {s : History φ} {task : Task φ} {as : List (Act φ)}

/-- So long as few tasks of the lowest priority come. -/
theorem normal_returned_below (hages : Ages (s.queue.push task) agingThreshold)
    (hnormal : task.priority = .normal) {n : Nat}
    (hn : ((s.queue.levels TaskPriority.normal.level).length
      + (s.queue.levels TaskPriority.low.level).length + pushes .low as) * (agingThreshold + 1)
      + agingThreshold ≤ n)
    (hpops : n < ((s.queue.push task).returned as).length) :
    s.queue.stamp task ∈ ((s.queue.push task).returned as).take (n + 1) := by
  have hstands := stands_push s.queue task
  have hlows := length_push s.queue task .low
  rw [if_neg (by rw [hnormal]; decide), Nat.add_zero] at hlows
  rw [hnormal] at hstands
  refine returned_within
    (C := fun q as ahead =>
      (ahead + (q.levels TaskPriority.low.level).length + pushes .low as) * (agingThreshold + 1)
        + (agingThreshold - q.servesSincePromotion)) ?_
    (fun _ hages hstands hpop => normal_pop_below hages hstands hpop _)
    hages hstands (by rw [hlows]; omega) hpops
  intro q t as ahead
  rw [Nat.add_assoc ahead, arriving_push, ← Nat.add_assoc]
  exact Nat.le_refl _

/-- So long as few tasks of the highest priority come. -/
theorem normal_returned_above (hpos : 1 ≤ agingThreshold)
    (hages : Ages (s.queue.push task) agingThreshold) (hnormal : task.priority = .normal) {n : Nat}
    (hn : ((s.queue.levels TaskPriority.normal.level).length
      + (s.queue.levels TaskPriority.high.level).length + pushes .high as) * 2 + 1 ≤ n)
    (hpops : n < ((s.queue.push task).returned as).length) :
    s.queue.stamp task ∈ ((s.queue.push task).returned as).take (n + 1) := by
  have hstands := stands_push s.queue task
  have hhighs := length_push s.queue task .high
  rw [if_neg (by rw [hnormal]; decide), Nat.add_zero] at hhighs
  rw [hnormal] at hstands
  refine returned_within
    (C := fun q as ahead =>
      (ahead + (q.levels TaskPriority.high.level).length + pushes .high as) * 2
        + (if agingThreshold ≤ q.servesSincePromotion then 1 else 0)) ?_
    (fun _ hages hstands hpop => normal_pop_above hages hpos hstands hpop _)
    hages hstands (by rw [hhighs]; split <;> omega) hpops
  intro q t as ahead
  rw [Nat.add_assoc ahead, arriving_push, ← Nat.add_assoc]
  exact Nat.le_refl _

/-- Every task is at one of the three levels. -/
theorem levels_size (q : PriorityQueue φ) :
    (q.levels TaskPriority.high.level).length + (q.levels TaskPriority.normal.level).length
      + (q.levels TaskPriority.low.level).length = q.size := by
  rw [size, q.counted, Fin.sum_univ_three]
  rfl

/--
**In the middle it takes pressure from one side only.** If, from the moment on at which a
task of normal priority is pushed, at most `m` tasks of the lowest priority are pushed,
or at most `m` of the highest, then it is returned within a number of pops that depends on
the threshold, the number of tasks in the queue at that moment, and `m`.
-/
theorem normal_returned_unless_squeezed (hpos : 1 ≤ agingThreshold)
    (h : (system φ true agingThreshold).Reachable s) (task : Task φ)
    (hnormal : task.priority = .normal) (as : List (Act φ)) {m : Nat}
    (hrare : pushes .low as ≤ m ∨ pushes .high as ≤ m)
    (hpops : (s.queue.size + m + 1) * (agingThreshold + 1)
      ≤ ((s.queue.push task).returned as).length) :
    s.queue.stamp task ∈ ((s.queue.push task).returned as).take
      ((s.queue.size + m + 1) * (agingThreshold + 1)) := by
  have hages : Ages (s.queue.push task) agingThreshold := ages_reachable h hpos
  have hsize := levels_size s.queue
  obtain ⟨n, hbound⟩ : ∃ n, (s.queue.size + m + 1) * (agingThreshold + 1) = n + 1 :=
    Nat.exists_eq_succ_of_ne_zero (Nat.mul_ne_zero (by omega) (by omega))
  have hn : (s.queue.size + m) * (agingThreshold + 1) + agingThreshold = n := by
    rw [Nat.add_mul (s.queue.size + m), Nat.one_mul] at hbound
    omega
  rw [hbound] at hpops ⊢
  -- either side alone bounds the wait
  rcases hrare with hlows | hhighs
  · refine normal_returned_below hages hnormal ?_ hpops
    have hmul := Nat.mul_le_mul_right (agingThreshold + 1)
      (show (s.queue.levels TaskPriority.normal.level).length
        + (s.queue.levels TaskPriority.low.level).length + pushes .low as
          ≤ s.queue.size + m by omega)
    omega
  · refine normal_returned_above hpos hages hnormal ?_ hpops
    have hmul := Nat.mul_le_mul
      (show (s.queue.levels TaskPriority.normal.level).length
        + (s.queue.levels TaskPriority.high.level).length + pushes .high as
          ≤ s.queue.size + m by omega)
      (show 2 ≤ agingThreshold + 1 by omega)
    omega

end Normal

/-- A turn for a task that came later, and then the promotion. -/
theorem normal_returned_unless_squeezed_second :
    ({ run := 1, sequence := 1 } : Task Nat)
      ∈ ((PriorityQueue.init true 1 : PriorityQueue Nat).push { run := 1 }).returned
          [.push { run := 0, priority := .high }, .push { run := 0, priority := .high }, .pop,
            .pop] := by
  have hreach : (system Nat true 1).Reachable { queue := .init true 1 } := .init rfl
  have hmem := normal_returned_unless_squeezed (by decide) hreach { run := 1 } rfl
    [.push { run := 0, priority := .high }, .push { run := 0, priority := .high }, .pop, .pop]
    (m := 0) (Or.inl (by decide)) (by decide +kernel)
  exact List.mem_of_mem_take hmem

/-! ## Between the two -/

/-- Every task is in the level of its priority. -/
def InOwnLevels (q : PriorityQueue φ) : Prop := ∀ l, ∀ t ∈ q.levels l, t.priority.level = l

theorem InOwnLevels.push {q : PriorityQueue φ} (h : InOwnLevels q) (task : Task φ) :
    InOwnLevels (q.push task) := by
  intro l t ht
  by_cases hl : l = task.priority.level
  · subst hl
    rw [push_levels_self, List.mem_append, List.mem_singleton] at ht
    rcases ht with ht | rfl
    · exact h _ t ht
    · rfl
  · rw [push_levels_of_ne q hl] at ht
    exact h l t ht

theorem InOwnLevels.taken {q q' : PriorityQueue φ} {level : Fin kPriorityLevels} {task : Task φ}
    (h : InOwnLevels q) (htaken : Taken q level task q') : InOwnLevels q' := by
  intro l t ht
  by_cases hl : l = level
  · subst hl
    exact h l t (htaken.front ▸ List.mem_cons_of_mem _ ht)
  · rw [htaken.others l hl] at ht
    exact h l t ht

/-- With tasks in both of the others, the level in the middle is passed over. -/
theorem extremes_first {q q' : PriorityQueue φ} {t : Task φ} (h : InOwnLevels q)
    (hhigh : q.levels TaskPriority.high.level ≠ []) (hlow : q.levels TaskPriority.low.level ≠ [])
    (hpop : Popped q t q') : t.priority ≠ .normal := by
  rintro hnormal
  have hlevel {level : Fin kPriorityLevels} (htaken : Taken q level t q') :
      level = TaskPriority.normal.level := by
    rw [← h level t (htaken.front ▸ List.mem_cons_self ..), hnormal]
  cases hpop with
  | served htaken hhigher =>
      obtain rfl := hlevel htaken
      exact hhigh (hhigher _ (by decide))
  | promoted htaken hlower =>
      obtain rfl := hlevel htaken
      exact hlow (hlower _ (by decide))

/-- Before every pop one task of the highest priority arrives, and one of the lowest. -/
def squeeze (run : φ) : Nat → List (Act φ)
  | 0 => []
  | n + 1 =>
      .push { run := run, priority := .high } :: .push { run := run, priority := .low } :: .pop
        :: squeeze run n

theorem returned_squeeze (run : φ) (n : Nat) {q : PriorityQueue φ} (h : InOwnLevels q) :
    (q.returned (squeeze run n)).length = n
      ∧ ∀ t ∈ q.returned (squeeze run n), t.priority ≠ .normal := by
  induction n generalizing q with
  | zero => exact ⟨rfl, by simp [squeeze, returned]⟩
  | succ n ih =>
      let high : Task φ := { run := run, priority := .high }
      let low : Task φ := { run := run, priority := .low }
      have hstands : Stands ((q.push high).push low) TaskPriority.high.level (q.stamp high) _ :=
        (stands_push q high).push low
      have hlow := (stands_push (q.push high) low).ne_nil
      have hplaced := (h.push high).push low
      obtain ⟨t, q', hpop⟩ := hstands.pop
      obtain ⟨level, htaken⟩ := (pop_effect hpop).taken
      obtain ⟨hlen, hothers⟩ := ih (hplaced.taken htaken)
      have hreturned : q.returned (squeeze run (n + 1)) = t :: q'.returned (squeeze run n) := by
        rw [squeeze, returned, returned, returned, hpop]
      rw [hreturned, List.length_cons, hlen, List.forall_mem_cons]
      exact ⟨rfl, extremes_first hplaced hstands.ne_nil hlow (pop_effect hpop), hothers⟩

/-- **Work of normal priority can starve**, with the threshold that the server uses. -/
theorem normal_squeezed :
    ∃ s : History Unit, (system Unit true 32).Reachable s
      ∧ ∃ task : Task Unit, task.priority = .normal ∧ ∀ bound, ∃ as : List (Act Unit),
        bound ≤ ((s.queue.push task).returned as).length
          ∧ s.queue.stamp task ∉ (s.queue.push task).returned as := by
  refine ⟨{ queue := .init true 32 }, .init rfl, { run := () }, rfl, fun bound => ?_⟩
  have hplaced : InOwnLevels (PriorityQueue.init true 32 : PriorityQueue Unit) := by
    intro l t ht
    exact absurd ht List.not_mem_nil
  obtain ⟨hlen, hothers⟩ := returned_squeeze () bound (hplaced.push { run := () })
  exact ⟨squeeze () bound, hlen.ge, fun hmem => hothers _ hmem rfl⟩

end KvStore.Pool.PriorityQueue
