import KvStore.Lib.Runs
import KvStore.Pool.TaskQueue

/-!
# Who is served next

The queue by priority, over whole runs. Beside the queue stands its history: every task
that was pushed, with the number it was given, and every task that was popped, each in
order. At every level, what was pushed is what was popped and then what waits there;
everything about conservation and order comes from that.
-/

namespace KvStore.Pool.PriorityQueue

open Lib

variable {φ : Type}

/-- A call of the queue. -/
inductive Act (φ : Type) where
  | push (task : Task φ)
  | pop

/-- A task as it stands in the queue. -/
def stamp (q : PriorityQueue φ) (task : Task φ) : Task φ :=
  { task with sequence := q.nextSequence + 1 }

/-- A queue, with what was put in and what came out. -/
structure History (φ : Type) where
  queue : PriorityQueue φ
  pushed : List (Task φ) := []
  popped : List (Task φ) := []

namespace History

/-- A call of the queue. -/
def step (s : History φ) : Act φ → Option (History φ)
  | .push task =>
      some { s with queue := s.queue.push task, pushed := s.pushed ++ [s.queue.stamp task] }
  | .pop =>
      match s.queue.pop with
      | none => some s
      | some (task, queue) => some { s with queue := queue, popped := s.popped ++ [task] }

/-- Pushed, and not popped. -/
def Waiting (s : History φ) (task : Task φ) : Prop := task ∈ s.pushed ∧ task ∉ s.popped

/-- The oldest of the highest priority that waits. -/
def Foremost (s : History φ) (task : Task φ) : Prop :=
  s.Waiting task ∧ ∀ t, s.Waiting t → task.priority.level < t.priority.level
    ∨ (task.priority.level = t.priority.level ∧ task.sequence ≤ t.sequence)

/-- The oldest of the lowest priority that waits. -/
def Hindmost (s : History φ) (task : Task φ) : Prop :=
  s.Waiting task ∧ ∀ t, s.Waiting t → t.priority.level < task.priority.level
    ∨ (task.priority.level = t.priority.level ∧ task.sequence ≤ t.sequence)

end History

/-- A queue from its construction on. -/
def system (φ : Type) (aging : Bool) (agingThreshold : Nat) : System (History φ) (Act φ) where
  init s := s = { queue := .init aging agingThreshold }
  step := History.step

theorem push_levels_self (q : PriorityQueue φ) (task : Task φ) :
    (q.push task).levels task.priority.level = q.levels task.priority.level ++ [q.stamp task] :=
  Function.update_self ..

theorem push_levels_of_ne (q : PriorityQueue φ) {task : Task φ} {l : Fin kPriorityLevels}
    (h : l ≠ task.priority.level) : (q.push task).levels l = q.levels l :=
  Function.update_of_ne h ..

theorem Taken.count {q q' : PriorityQueue φ} {level : Fin kPriorityLevels} {task : Task φ}
    (h : Taken q level task q') : q.count = q'.count + 1 := by
  rw [← q.card_bag, ← q'.card_bag, h.bag, Multiset.card_cons]

/-! ## What the history says of the queue -/

/-- The tasks of one level. -/
def ofLevel (level : Fin kPriorityLevels) (tasks : List (Task φ)) : List (Task φ) :=
  tasks.filter (·.priority.level = level)

@[simp] theorem mem_ofLevel {level : Fin kPriorityLevels} {tasks : List (Task φ)} {t : Task φ} :
    t ∈ ofLevel level tasks ↔ t ∈ tasks ∧ t.priority.level = level := by
  simp [ofLevel]

theorem ofLevel_append (level : Fin kPriorityLevels) (tasks tasks' : List (Task φ)) :
    ofLevel level (tasks ++ tasks') = ofLevel level tasks ++ ofLevel level tasks' :=
  List.filter_append ..

theorem ofLevel_self (task : Task φ) : ofLevel task.priority.level [task] = [task] := by
  simp [ofLevel]

theorem ofLevel_of_ne {level : Fin kPriorityLevels} {task : Task φ}
    (h : task.priority.level ≠ level) : ofLevel level [task] = [] := by
  simp [ofLevel, h]

theorem ofLevel_sublist (level : Fin kPriorityLevels) (tasks : List (Task φ)) :
    (ofLevel level tasks).Sublist tasks := List.filter_sublist

/-- What a queue keeps of the tasks it was given, and of the turns it has served. -/
structure Keeps (aging : Bool) (agingThreshold : Nat) (s : History φ) : Prop where
  parts : ∀ level, ofLevel level s.pushed = ofLevel level s.popped ++ s.queue.levels level
  ordered : s.pushed.Pairwise (·.sequence < ·.sequence)
  stamped : ∀ t ∈ s.pushed, t.sequence ≤ s.queue.nextSequence
  counted : s.queue.count + s.popped.length = s.pushed.length
  served : s.queue.served = s.popped.length
  /-- A promotion uses up as many turns as the threshold says. -/
  rate : s.queue.promotions * s.queue.agingThreshold + s.queue.servesSincePromotion
    + s.queue.promotions ≤ s.queue.served
  policy : s.queue.aging = aging
  threshold : s.queue.agingThreshold = if agingThreshold = 0 then 1 else agingThreshold
  promotions : aging = false → s.queue.promotions = 0

section Keeps

variable {aging : Bool} {agingThreshold : Nat} {s : History φ}

theorem Keeps.mem_pushed (h : Keeps aging agingThreshold s) {level : Fin kPriorityLevels}
    {t : Task φ} (ht : t ∈ s.queue.levels level) : t ∈ s.pushed ∧ t.priority.level = level := by
  have hmem : t ∈ ofLevel level s.pushed := by
    rw [h.parts]
    exact List.mem_append_right _ ht
  exact mem_ofLevel.mp hmem

theorem Keeps.nodup (h : Keeps aging agingThreshold s) : s.pushed.Nodup :=
  h.ordered.imp fun hlt heq => absurd (congrArg Task.sequence heq) (Nat.ne_of_lt hlt)

/-- What is not in the history of pops is in its level. -/
theorem Keeps.waiting_iff (h : Keeps aging agingThreshold s) (t : Task φ) :
    s.Waiting t ↔ t ∈ s.queue.levels t.priority.level := by
  have hparts := h.parts t.priority.level
  have hnodup := h.nodup.sublist (ofLevel_sublist t.priority.level _)
  rw [hparts] at hnodup
  constructor
  · rintro ⟨hpushed, hpopped⟩
    have hmem := mem_ofLevel.mpr ⟨hpushed, rfl⟩
    rw [hparts] at hmem
    exact (List.mem_append.mp hmem).resolve_left fun hm => hpopped (mem_ofLevel.mp hm).1
  · intro ht
    refine ⟨(h.mem_pushed ht).1, fun hpopped => ?_⟩
    -- it would be in the history of its level twice
    exact (List.nodup_append'.mp hnodup).2.2 (mem_ofLevel.mpr ⟨hpopped, rfl⟩) ht

/-- The front of a level is the oldest there. -/
theorem Keeps.front_le (h : Keeps aging agingThreshold s) {level : Fin kPriorityLevels}
    {task t : Task φ} {tasks : List (Task φ)} (hfront : s.queue.levels level = task :: tasks)
    (ht : t ∈ s.queue.levels level) : task.sequence ≤ t.sequence := by
  have hsorted := h.ordered.sublist (ofLevel_sublist level _)
  rw [h.parts level, hfront] at hsorted
  have hlevel := (List.pairwise_append.mp hsorted).2.1
  rw [hfront] at ht
  rcases List.mem_cons.mp ht with rfl | ht
  · exact Nat.le_refl _
  · exact Nat.le_of_lt ((List.pairwise_cons.mp hlevel).1 t ht)

theorem Keeps.taken (h : Keeps aging agingThreshold s) {level : Fin kPriorityLevels}
    {task : Task φ} {q' : PriorityQueue φ} (htaken : Taken s.queue level task q') :
    task.priority.level = level ∧ s.Waiting task := by
  have hmem : task ∈ s.queue.levels level := htaken.front ▸ List.mem_cons_self ..
  have hlevel := (h.mem_pushed hmem).2
  exact ⟨hlevel, (h.waiting_iff task).mpr (hlevel ▸ hmem)⟩

/-- A turn is given to the foremost. -/
theorem Keeps.foremost (h : Keeps aging agingThreshold s) {level : Fin kPriorityLevels}
    {task : Task φ} {q' : PriorityQueue φ} (htaken : Taken s.queue level task q')
    (hhigher : ∀ l, l < level → s.queue.levels l = []) : s.Foremost task := by
  obtain ⟨rfl, hwaiting⟩ := h.taken htaken
  refine ⟨hwaiting, fun t ht => ?_⟩
  have hmem := (h.waiting_iff t).mp ht
  rcases lt_trichotomy task.priority.level t.priority.level with hlt | heq | hgt
  · exact Or.inl hlt
  · exact Or.inr ⟨heq, h.front_le htaken.front (heq ▸ hmem)⟩
  · rw [hhigher _ hgt] at hmem
    exact absurd hmem List.not_mem_nil

/-- A promotion is given to the hindmost. -/
theorem Keeps.hindmost (h : Keeps aging agingThreshold s) {level : Fin kPriorityLevels}
    {task : Task φ} {q' : PriorityQueue φ} (htaken : Taken s.queue level task q')
    (hlower : ∀ l, level < l → s.queue.levels l = []) : s.Hindmost task := by
  obtain ⟨rfl, hwaiting⟩ := h.taken htaken
  refine ⟨hwaiting, fun t ht => ?_⟩
  have hmem := (h.waiting_iff t).mp ht
  rcases lt_trichotomy t.priority.level task.priority.level with hlt | heq | hgt
  · exact Or.inl hlt
  · exact Or.inr ⟨heq.symm, h.front_le htaken.front (heq ▸ hmem)⟩
  · rw [hlower _ hgt] at hmem
    exact absurd hmem List.not_mem_nil

theorem Keeps.push (h : Keeps aging agingThreshold s) (task : Task φ) :
    Keeps aging agingThreshold
      { s with queue := s.queue.push task, pushed := s.pushed ++ [s.queue.stamp task] } where
  parts level := by
    show ofLevel level (s.pushed ++ [s.queue.stamp task])
      = ofLevel level s.popped ++ (s.queue.push task).levels level
    rw [ofLevel_append, h.parts level, List.append_assoc]
    by_cases hlevel : task.priority.level = level
    · subst hlevel
      rw [push_levels_self]
      exact congrArg _ (congrArg _ (ofLevel_self (s.queue.stamp task)))
    · have hother : ofLevel level [s.queue.stamp task] = [] := ofLevel_of_ne hlevel
      rw [push_levels_of_ne _ (Ne.symm hlevel), hother, List.append_nil]
  ordered := by
    refine List.pairwise_append.mpr ⟨h.ordered, List.pairwise_singleton .., fun t ht t' ht' => ?_⟩
    rw [List.mem_singleton.mp ht']
    exact Nat.lt_succ_of_le (h.stamped t ht)
  stamped := by
    refine List.forall_mem_append.mpr ⟨fun t ht => Nat.le_succ_of_le (h.stamped t ht), ?_⟩
    intro t ht
    rw [List.mem_singleton.mp ht]
    exact Nat.le_refl _
  counted := by
    have hcount := h.counted
    show s.queue.count + 1 + s.popped.length = (s.pushed ++ [s.queue.stamp task]).length
    rw [List.length_append, List.length_singleton]
    omega
  served := h.served
  rate := h.rate
  policy := h.policy
  threshold := h.threshold
  promotions := h.promotions

theorem Keeps.pop (h : Keeps aging agingThreshold s) {task : Task φ} {q' : PriorityQueue φ}
    (hpop : Popped s.queue task q') :
    Keeps aging agingThreshold { s with queue := q', popped := s.popped ++ [task] } := by
  obtain ⟨level, htaken⟩ := hpop.taken
  obtain ⟨rfl, -⟩ := h.taken htaken
  have hlength : (s.popped ++ [task]).length = s.popped.length + 1 := List.length_append ..
  refine ⟨fun level => ?_, h.ordered, ?_, ?_, ?_, ?_, htaken.aging.trans h.policy,
    htaken.agingThreshold.trans h.threshold, ?_⟩
  · show ofLevel level s.pushed = ofLevel level (s.popped ++ [task]) ++ q'.levels level
    rw [h.parts level, ofLevel_append, List.append_assoc]
    by_cases hlevel : task.priority.level = level
    · -- the task goes from the front of its level to the end of the pops
      subst hlevel
      rw [ofLevel_self, htaken.front, List.singleton_append]
    · rw [ofLevel_of_ne hlevel, List.nil_append, htaken.others level (Ne.symm hlevel)]
  · rw [htaken.nextSequence]
    exact h.stamped
  · have hcount := h.counted
    rw [htaken.count] at hcount
    dsimp only
    omega
  · rw [htaken.served, h.served, hlength]
  · have hrate := h.rate
    rw [htaken.served, htaken.agingThreshold]
    cases hpop with
    | served _ _ _ hpromotions hsince =>
        rw [hpromotions, hsince]
        omega
    | promoted _ _ _ _ hdue hpromotions hsince =>
        -- the turns since the last promotion, at least as many as the threshold, are used up
        rw [hpromotions, hsince, Nat.add_mul, Nat.one_mul]
        omega
  · intro hoff
    cases hpop with
    | served _ _ _ hpromotions _ => exact hpromotions.trans (h.promotions hoff)
    | promoted _ _ _ haging _ _ _ => exact absurd (h.policy.symm.trans haging) (by simp [hoff])

theorem keeps_reachable (h : (system φ aging agingThreshold).Reachable s) :
    Keeps aging agingThreshold s := by
  refine h.invariant (I := Keeps aging agingThreshold) ?_ ?_
  · rintro s rfl
    exact ⟨fun _ => rfl, .nil, by simp, rfl, rfl, by simp [PriorityQueue.init], rfl, rfl,
      fun _ => rfl⟩
  · intro s a s' hk _ hs
    cases a with
    | push task =>
        cases hs
        exact hk.push task
    | pop =>
        cases hpop : s.queue.pop with
        | none =>
            have hsame : s.step .pop = some s := by rw [History.step, hpop]
            obtain rfl := Option.some.inj (hsame.symm.trans hs)
            exact hk
        | some r =>
            have hnext : s.step .pop = some
              { s with queue := r.2, popped := s.popped ++ [r.1] } := by
              rw [History.step, hpop]
            obtain rfl := Option.some.inj (hnext.symm.trans hs)
            exact hk.pop (pop_effect hpop)

/-- A task of one level is popped before the tasks that were pushed after it. -/
theorem Keeps.popped_prefix (h : Keeps aging agingThreshold s) (level : Fin kPriorityLevels) :
    ofLevel level s.popped <+: ofLevel level s.pushed := by
  rw [h.parts level]
  exact List.prefix_append _ _

/-- Two pops of one task would be two pushes of it. -/
theorem Keeps.popped_nodup (h : Keeps aging agingThreshold s) : s.popped.Nodup := by
  rw [List.nodup_iff_sublist]
  intro t hsub
  have htwice : (ofLevel t.priority.level [t, t]).Sublist (ofLevel t.priority.level s.popped) :=
    hsub.filter _
  have hboth : ofLevel t.priority.level [t, t] = [t, t] := by simp [ofLevel]
  rw [hboth] at htwice
  have hpushed := htwice.trans (h.popped_prefix t.priority.level).sublist
  exact List.nodup_iff_sublist.mp h.nodup t (hpushed.trans (ofLevel_sublist _ _))

end Keeps

theorem level_injective : Function.Injective TaskPriority.level := by
  intro a b h
  cases a <;> cases b <;> first | rfl | exact absurd h (by decide)

/--
**Nothing is lost, nothing is popped twice, and nobody overtakes within a priority.** A
turn goes to the oldest task of the highest priority; a promotion, of which there is at
most one for as many turns as the threshold says, to the oldest of the lowest.
-/
theorem priorityQueue_conserves_and_orders {aging : Bool} {agingThreshold : Nat} {s : History φ}
    (h : (system φ aging agingThreshold).Reachable s) :
    s.popped.length ≤ s.pushed.length
      ∧ s.queue.size = s.pushed.length - s.popped.length
      ∧ (s.queue.pop = none ↔ s.pushed.length - s.popped.length = 0)
      ∧ s.pushed.Pairwise (·.sequence < ·.sequence) ∧ s.popped.Nodup
      ∧ (∀ priority, s.popped.filter (·.priority = priority)
          <+: s.pushed.filter (·.priority = priority))
      ∧ s.queue.agingThreshold = (if agingThreshold = 0 then 1 else agingThreshold)
      ∧ s.queue.promotions * s.queue.agingThreshold ≤ s.queue.served - s.queue.promotions
      ∧ (aging = false → s.queue.promotions = 0)
      ∧ ∀ task q', s.queue.pop = some (task, q') →
        (q'.promotions = s.queue.promotions ∧ s.Foremost task)
          ∨ (q'.promotions = s.queue.promotions + 1 ∧ s.Hindmost task) := by
  have hk := keeps_reachable h
  have hcount := hk.counted
  have hrate := hk.rate
  refine ⟨by omega, ?_, ?_, hk.ordered, hk.popped_nodup, fun priority => ?_, hk.threshold, by omega,
    hk.promotions, fun task q' hpop => ?_⟩
  · show s.queue.count = _
    omega
  · rw [pop_none]
    omega
  · have hsame : ∀ tasks : List (Task φ),
        tasks.filter (·.priority = priority) = ofLevel priority.level tasks := by
      intro tasks
      simp only [ofLevel, level_injective.eq_iff]
    rw [hsame, hsame]
    exact hk.popped_prefix priority.level
  · cases pop_effect hpop with
    | served htaken hhigher _ hpromotions _ =>
        exact Or.inl ⟨hpromotions, hk.foremost htaken hhigher⟩
    | promoted htaken hlower _ _ _ hpromotions _ =>
        exact Or.inr ⟨hpromotions, hk.hindmost htaken hlower⟩

/-- A task of every priority, and a threshold of one. -/
def oneOfEach : List (Act Nat) :=
  [.push { run := 0, priority := .low }, .push { run := 1 }, .push { run := 2, priority := .high },
    .pop]

theorem priorityQueue_conserves_and_orders_promotion :
    ∃ s : History Nat, ∃ task q', s.queue.size = 2 ∧ s.queue.pop = some (task, q')
      ∧ q'.promotions = 1 ∧ s.Hindmost task := by
  obtain ⟨s, r, hreach, hpop, hsize, hnone, hone⟩ := System.exists_reachableBy_some
    (g := fun s : History Nat => s.queue.pop)
    (p := fun s r => s.queue.size = 2 ∧ s.queue.promotions = 0 ∧ r.2.promotions = 1)
    (show (system Nat true 1).Reachable _ from .init rfl) oneOfEach (by decide +kernel)
    (by decide +kernel)
  obtain ⟨-, -, -, -, -, -, -, -, -, hnext⟩ := priorityQueue_conserves_and_orders hreach
  rcases hnext r.1 r.2 hpop with ⟨hsame, -⟩ | ⟨-, hhindmost⟩
  · rw [hone, hnone] at hsame
    exact absurd hsame (by decide)
  · exact ⟨s, r.1, r.2, hsize, hpop, hone, hhindmost⟩

end KvStore.Pool.PriorityQueue
