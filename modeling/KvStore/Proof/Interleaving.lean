import KvStore.Lib.Runs
import KvStore.Proof.Durability

/-!
# Concurrent writers

A logged operation takes the epoch lock shared, appends to the log under the log's
mutex, changes the map under the shards' locks, and lets the epoch go. Only the
middle two steps change anything, and each is atomic; nothing ties them together.
So operations reach the map in some other order than the log, and the question is
when that matters.

The log is always ahead of the map, by the operations that are logged and not yet
applied. Replaying the log is carrying those out as well, in log order. An
operation that is applied early moves to the front of that queue, past the ones
that were logged before it, and may do so when it has no key in common with them.
-/

namespace KvStore

open Lib Wal Protocol

variable {cfg : StoreConfig}

namespace Op

/-- No key is written by both. -/
def Apart (op op' : Op) : Prop := Lib.Apart op.updates op'.updates

instance (op op' : Op) : Decidable (op.Apart op') :=
  inferInstanceAs (Decidable (Lib.Apart _ _))

end Op

namespace Writers

variable {n : Nat}

/-- Where a thread is inside an operation. -/
inductive Phase where
  /-- Holds `walEpoch_` shared. -/
  | entered (op : Op)
  | appended (op : Op) (endOffset : Nat)
  | applied (op : Op)
  deriving DecidableEq, Repr

/-- The store, and what each of `n` threads is doing to it. -/
structure State (cfg : StoreConfig) (n : Nat) where
  store : Store cfg
  threads : Fin n → Option Phase

/-- The thread that takes a step, and which. -/
inductive Act (n : Nat) where
  | enter (t : Fin n) (op : Op)
  | append (t : Fin n)
  | apply (t : Fin n)
  | release (t : Fin n)
  deriving DecidableEq, Repr

/--
One step of one thread. A commit without mutations returns before it touches the
lock, so only operations that log something are here.
-/
def step (s : State cfg n) : Act n → Option (State cfg n)
  | .enter t op =>
      match s.threads t with
      | none =>
          if op.payloads ≠ [] then
            some { s with threads := Function.update s.threads t (some (.entered op)) }
          else none
      | some _ => none
  | .append t =>
      match s.threads t with
      | some (.entered op) =>
          match op.append cfg.fsyncMode s.store.log {} with
          | (log, .ok endOffset) =>
              some
                { store := { s.store with log := log }
                  threads := Function.update s.threads t (some (.appended op endOffset)) }
          | (_, .error _) => none
      | _ => none
  | .apply t =>
      match s.threads t with
      | some (.appended op _) =>
          some
            { store := { s.store with map := op.applyTo s.store.map }
              threads := Function.update s.threads t (some (.applied op)) }
      | _ => none
  | .release t =>
      match s.threads t with
      | some (.applied _) => some { s with threads := Function.update s.threads t none }
      | _ => none

/-- What a step does. -/
inductive Stepped (s : State cfg n) : Act n → State cfg n → Prop
  | entered {t : Fin n} {op : Op} (hidle : s.threads t = none) (hne : op.payloads ≠ []) :
      Stepped s (.enter t op) { s with threads := Function.update s.threads t (some (.entered op)) }
  | appended {t : Fin n} {op : Op} {log : WriteAheadLog}
      (hent : s.threads t = some (.entered op))
      (hlog : op.payloads ≠ [] → log.file = s.store.log.file ++ op.bytes
        ∧ log.offset = s.store.log.offset + op.bytes.length) :
      Stepped s (.append t)
        { store := { s.store with log := log }
          threads := Function.update s.threads t (some (.appended op log.offset)) }
  | applied {t : Fin n} {op : Op} {e : Nat} (happ : s.threads t = some (.appended op e)) :
      Stepped s (.apply t)
        { store := { s.store with map := op.applyTo s.store.map }
          threads := Function.update s.threads t (some (.applied op)) }
  | released {t : Fin n} {op : Op} (happ : s.threads t = some (.applied op)) :
      Stepped s (.release t) { s with threads := Function.update s.threads t none }

theorem step_effect {s s' : State cfg n} {a : Act n} (hs : step s a = some s') :
    Stepped s a s' := by
  cases a with
  | enter t op =>
      rw [step] at hs
      split at hs
      · rename_i hidle
        split at hs
        · rename_i hne
          cases hs
          exact .entered hidle hne
        · exact absurd hs (by simp)
      · exact absurd hs (by simp)
  | append t =>
      rw [step] at hs
      split at hs
      · rename_i op hent
        obtain ⟨log, blob, hw, hfile, hoffset, hblob⟩ := append_ok cfg.fsyncMode s.store.log op
        rw [hw, ← hoffset] at hs
        cases hs
        refine .appended hent fun hne => ?_
        rw [hfile, hoffset, hblob hne]
        exact ⟨rfl, rfl⟩
      · exact absurd hs (by simp)
  | apply t =>
      rw [step] at hs
      split at hs
      · rename_i op e happ
        cases hs
        exact .applied happ
      · exact absurd hs (by simp)
  | release t =>
      rw [step] at hs
      split at hs
      · rename_i op happ
        cases hs
        exact .released happ
      · exact absurd hs (by simp)

/-- Writers of a store that was opened on `file`. -/
def system (cfg : StoreConfig) (n : Nat) (file : Bytes) : System (State cfg n) (Act n) where
  init s := s = { store := Store.openOn cfg file, threads := fun _ => none }
  step := step

/-- No operation is in flight. -/
def Quiescent (s : State cfg n) : Prop := ∀ t, s.threads t = none

instance (s : State cfg n) : Decidable (Quiescent s) := inferInstanceAs (Decidable (∀ _, _))

/-- The first may be applied before the second: if it was logged later, they share no key. -/
def mayPass : Option Phase → Option Phase → Prop
  | some (.appended op e), some (.appended op' e') => e' < e → op'.Apart op
  | _, _ => True

instance (p q : Option Phase) : Decidable (mayPass p q) := by
  unfold mayPass
  split <;> infer_instance

/--
An operation that is begun fits into the log, and is applied when no operation that
was logged before it, and is still to be applied, writes one of its keys.
-/
def Orderly (s : State cfg n) : Act n → Prop
  | .enter _ op => op.Fits
  | .apply t => ∀ t', mayPass (s.threads t) (s.threads t')
  | _ => True

instance (s : State cfg n) (a : Act n) : Decidable (Orderly s a) := by
  unfold Orderly
  split <;> infer_instance

/-! ## How far the log is ahead -/

/-- The operations that are logged and not yet applied, in log order. -/
abbrev Queue (n : Nat) := List (Fin n × Op × Nat)

/-- What the queue is still going to do. -/
def Queue.updates (queue : Queue n) : List (Update Bytes Bytes) :=
  queue.flatMap fun x => x.2.1.updates

theorem Queue.updates_append (queue queue' : Queue n) :
    Queue.updates (queue ++ queue') = queue.updates ++ queue'.updates := List.flatMap_append

/-- `ops` have been logged, and the map lacks those of `queue`. -/
structure Ahead (cfg : StoreConfig) (file : Bytes) (s : State cfg n) (ops : List Op)
    (queue : Queue n) : Prop where
  fits : ∀ op ∈ ops, op.Fits
  entered : ∀ t op, s.threads t = some (.entered op) → op.payloads ≠ [] ∧ op.Fits
  logged : s.store.log.file = (Store.openOn cfg file).log.file ++ ops.flatMap Op.bytes
  queued : ∀ t op e, s.threads t = some (.appended op e) ↔ (t, op, e) ∈ queue
  ordered : queue.Pairwise fun x y => x.2.2 < y.2.2
  within : ∀ x ∈ queue, x.2.2 ≤ s.store.log.offset
  ahead : runUpdates (ops.flatMap Op.updates) (Store.openOn cfg file).map.contents
    = runUpdates queue.updates s.store.map.contents

theorem ahead_init (file : Bytes) :
    Ahead (n := n) cfg file { store := Store.openOn cfg file, threads := fun _ => none }
      [] [] := by
  refine ⟨by simp, by simp, by simp, by simp, List.Pairwise.nil, by simp, rfl⟩

/-- Only the thread that takes the step can come to be inside an operation. -/
theorem entered_update {P : Op → Prop} {threads : Fin n → Option Phase} {t : Fin n}
    {p : Option Phase}
    (h : ∀ t op, threads t = some (.entered op) → P op) (hp : ∀ op, p = some (.entered op) → P op)
    (t' : Fin n) (op : Op) (ht' : Function.update threads t p t' = some (.entered op)) : P op := by
  by_cases heq : t' = t
  · subst heq
    rw [Function.update_self] at ht'
    exact hp op ht'
  · rw [Function.update_of_ne heq] at ht'
    exact h t' op ht'

/-- A thread outside the queue that stays outside it leaves the queue alone. -/
theorem appended_update {threads : Fin n → Option Phase} {t : Fin n} {p : Option Phase}
    (hold : ∀ op e, threads t ≠ some (.appended op e)) (hnew : ∀ op e, p ≠ some (.appended op e))
    (t' : Fin n) (op : Op) (e : Nat) :
    Function.update threads t p t' = some (.appended op e)
      ↔ threads t' = some (.appended op e) := by
  by_cases heq : t' = t
  · subst heq
    rw [Function.update_self]
    exact iff_of_false (hnew op e) (hold op e)
  · rw [Function.update_of_ne heq]

/-- Entering changes nothing but the thread's own phase. -/
theorem ahead_enter {file : Bytes} {s : State cfg n} {ops : List Op} {queue : Queue n}
    (h : Ahead cfg file s ops queue) {t : Fin n} {op : Op} (hidle : s.threads t = none)
    (hne : op.payloads ≠ []) (hfit : op.Fits) :
    Ahead cfg file { s with threads := Function.update s.threads t (some (.entered op)) }
      ops queue := by
  refine ⟨h.fits, ?_, h.logged, ?_, h.ordered, h.within, h.ahead⟩
  · refine entered_update h.entered fun op' hp => ?_
    cases hp
    exact ⟨hne, hfit⟩
  · intro t' op' e'
    rw [← h.queued]
    exact appended_update (by simp [hidle]) (by simp) t' op' e'

/-- Appending puts the operation at the end of the queue. -/
theorem ahead_append {file : Bytes} {s : State cfg n}
    {ops : List Op} {queue : Queue n} (h : Ahead cfg file s ops queue) {t : Fin n} {op : Op}
    (hent : s.threads t = some (.entered op)) {log : WriteAheadLog}
    (hfile : log.file = s.store.log.file ++ op.bytes)
    (hoffset : log.offset = s.store.log.offset + op.bytes.length) :
    Ahead cfg file
      { store := { s.store with log := log }
        threads := Function.update s.threads t (some (.appended op log.offset)) }
      (ops ++ [op]) (queue ++ [(t, op, log.offset)]) := by
  obtain ⟨hne, hfit⟩ := h.entered t op hent
  have hpos := bytes_pos hne
  refine ⟨?_, entered_update h.entered (by simp), ?_, ?_, ?_, ?_, ?_⟩
  · exact Op.fits_concat h.fits hfit
  · rw [hfile, h.logged, List.flatMap_append]
    simp
  · intro t' op' e'
    rw [List.mem_append, ← h.queued, List.mem_singleton]
    dsimp only
    by_cases heq : t' = t
    · subst heq
      rw [Function.update_self, hent]
      simp [eq_comm]
    · rw [Function.update_of_ne heq]
      simp [heq]
  · -- a later append ends further on
    refine List.pairwise_append.mpr ⟨h.ordered, List.pairwise_singleton _ _, ?_⟩
    intro x hx y hy
    rcases List.mem_singleton.mp hy with rfl
    have := h.within x hx
    show x.2.2 < log.offset
    omega
  · intro x hx
    rcases List.mem_append.mp hx with hx | hx
    · have := h.within x hx
      show x.2.2 ≤ log.offset
      omega
    · rcases List.mem_singleton.mp hx with rfl
      exact Nat.le_refl _
  · rw [List.flatMap_append, runUpdates_append, h.ahead, Queue.updates_append, runUpdates_append]
    simp [Queue.updates]

/--
**Applying takes the operation out of the queue.** The ones in front of it were
logged before it, so it does not meet them and may as well have been first.
-/
theorem ahead_apply (hoff : cfg.maxMemoryBytes = 0) {file : Bytes} {s : State cfg n}
    {ops : List Op} {queue : Queue n} (h : Ahead cfg file s ops queue) {t : Fin n} {op : Op}
    {e : Nat}
    (happ : s.threads t = some (.appended op e)) (hok : Orderly s (.apply t)) :
    ∃ queue', Ahead cfg file
      { store := { s.store with map := op.applyTo s.store.map }
        threads := Function.update s.threads t (some (.applied op)) } ops queue' := by
  obtain ⟨front, back, hsplit⟩ := List.append_of_mem ((h.queued t op e).mp happ)
  have hord := h.ordered
  rw [hsplit, List.pairwise_append, List.pairwise_cons] at hord
  obtain ⟨hfront, ⟨hback, hback'⟩, hcross⟩ := hord
  have hmem : ∀ x ∈ front ++ back, x ∈ queue := by
    intro x hx
    rw [hsplit]
    rcases List.mem_append.mp hx with hx | hx
    · exact List.mem_append_left _ hx
    · exact List.mem_append_right _ (List.mem_cons_of_mem _ hx)
  -- a thread has one operation in the queue at most
  have hother : ∀ op' e', (t, op', e') ∉ front ++ back := by
    intro op' e' hx
    have hsame := (h.queued t op' e').mpr (hmem _ hx)
    rw [happ] at hsame
    obtain ⟨rfl, rfl⟩ := Phase.appended.inj (Option.some.inj hsame)
    rcases List.mem_append.mp hx with hx | hx
    · exact absurd (hcross _ hx _ (List.mem_cons_self ..)) (Nat.lt_irrefl _)
    · exact absurd (hback _ hx) (Nat.lt_irrefl _)
  have hapart : Apart (Queue.updates front) op.updates := by
    -- whoever stands in front was logged before, and is still to be applied
    intro u hu v hv
    obtain ⟨⟨t', op', e'⟩, hx, hu⟩ := List.mem_flatMap.mp hu
    have hlt := hcross _ hx _ (List.mem_cons_self ..)
    have hin := (h.queued t' op' e').mpr (hmem _ (List.mem_append_left _ hx))
    have hpass := hok t'
    rw [happ, hin] at hpass
    exact hpass hlt u hu v hv
  refine ⟨front ++ back, h.fits, entered_update h.entered (by simp), h.logged, ?_, ?_,
    fun x hx => h.within x (hmem x hx), ?_⟩
  · intro t' op' e'
    dsimp only
    by_cases heq : t' = t
    · subst heq
      rw [Function.update_self]
      simp [hother op' e']
    · rw [Function.update_of_ne heq, h.queued, hsplit, List.mem_append, List.mem_append,
        List.mem_cons]
      simp [heq]
  · refine List.pairwise_append.mpr ⟨hfront, hback', fun x hx y hy => ?_⟩
    exact hcross x hx y (List.mem_cons_of_mem _ hy)
  · have hqueue : queue.updates = Queue.updates front ++ (op.updates ++ Queue.updates back) := by
      rw [hsplit]; simp [Queue.updates]
    rw [h.ahead, hqueue, Queue.updates_append, applyTo_contents hoff, runUpdates_append,
      runUpdates_append, runUpdates_append, runUpdates_comm _ hapart]

/-- Releasing changes nothing but the thread's own phase. -/
theorem ahead_release {file : Bytes} {s : State cfg n} {ops : List Op} {queue : Queue n}
    (h : Ahead cfg file s ops queue) {t : Fin n} {op : Op}
    (happ : s.threads t = some (.applied op)) :
    Ahead cfg file { s with threads := Function.update s.threads t none } ops queue := by
  refine ⟨h.fits, entered_update h.entered (by simp), h.logged, ?_, h.ordered, h.within, h.ahead⟩
  intro t' op' e'
  rw [← h.queued]
  exact appended_update (by simp [happ]) (by simp) t' op' e'

theorem ahead_step (hoff : cfg.maxMemoryBytes = 0) {file : Bytes} {s s' : State cfg n} {a : Act n}
    (h : ∃ ops queue, Ahead cfg file s ops queue) (hok : Orderly s a) (hs : step s a = some s') :
    ∃ ops queue, Ahead cfg file s' ops queue := by
  obtain ⟨ops, queue, h⟩ := h
  cases step_effect hs with
  | entered hidle hne => exact ⟨ops, queue, ahead_enter h hidle hne hok⟩
  | appended hent hlog =>
      obtain ⟨hfile, hoffset⟩ := hlog (h.entered _ _ hent).1
      exact ⟨_, _, ahead_append h hent hfile hoffset⟩
  | applied happ => exact ⟨ops, ahead_apply hoff h happ hok⟩
  | released happ => exact ⟨ops, queue, ahead_release h happ⟩

theorem ahead_reachable (hoff : cfg.maxMemoryBytes = 0) {file : Bytes} {s : State cfg n}
    (h : (system cfg n file).ReachableBy Orderly s) : ∃ ops queue, Ahead cfg file s ops queue := by
  refine h.invariant ?_ fun s a s' hs hok hstep => ahead_step hoff hs hok hstep
  rintro s rfl
  exact ⟨[], [], ahead_init file⟩

/--
**When the writers are done, the log and the map agree**, whatever the order of
their steps, so long as every operation fits into the log and none overtakes one
with a key in common on its way from the log to the map.
-/
theorem quiescent_agrees (hlog : cfg.logEnabled = true) (hoff : cfg.maxMemoryBytes = 0)
    {file : Bytes} (hclosed : (Store.openOn cfg file).recoveryDiscardedTransaction = false)
    {s : State cfg n} (h : (system cfg n file).ReachableBy Orderly s) (hq : Quiescent s) :
    s.store.map.contents = (Store.openOn cfg s.store.log.file).map.contents := by
  obtain ⟨ops, queue, ha⟩ := ahead_reachable hoff h
  -- with nobody inside an operation, the log is ahead of nothing
  have hnil : queue = [] := by
    rw [List.eq_nil_iff_forall_not_mem]
    rintro ⟨t, op, e⟩ hx
    have := (ha.queued t op e).mpr hx
    rw [hq t] at this
    exact absurd this (by simp)
  have hfile : s.store.log.file = fileAfter cfg file ops := by
    rw [ha.logged, fileAfter, (performAll_ok hlog ops _).1]
  have hahead := ha.ahead
  rw [hnil] at hahead
  rw [hfile, (recoversAppended_of_closed hlog ha.fits hclosed).map,
    Meaning.applyOps_contents hoff, hahead]
  rfl

/-- Two writers; the one that logs second is applied first. -/
def passing {n : Nat} (t u : Fin n) (op op' : Op) : List (Act n) :=
  [.enter t op, .enter u op', .append t, .append u, .apply u, .apply t, .release t, .release u]

/-- Writers of different keys may pass each other. -/
theorem quiescent_agrees_passing :
    ∃ s, (system standalone 2 []).ReachableBy Orderly s
      ∧ s.store.map.contents [97] = some [49]
      ∧ s.store.map.contents = (Store.openOn standalone s.store.log.file).map.contents := by
  obtain ⟨s, hreach, hq, hkey⟩ := System.exists_reachableBy
    (p := fun s => Quiescent s ∧ s.store.map.contents [97] = some [49])
    (show (system standalone 2 []).ReachableBy Orderly _ from .init rfl)
    (passing 0 1 (.set [97] [49]) (.del [98])) (by decide +kernel) (by decide +kernel)
  exact ⟨s, hreach, hkey, quiescent_agrees rfl rfl rfl hreach hq⟩

/-- Writers of one key pass each other: memory has one value, the log the other. -/
theorem not_quiescent_agrees_passing :
    ∃ s, (system standalone 2 []).Reachable s ∧ Quiescent s
      ∧ s.store.map.contents [107] = some [49]
      ∧ (Store.openOn standalone s.store.log.file).map.contents [107] = some [50] :=
  System.exists_reachableBy (.init rfl) (passing 0 1 (.set [107] [49]) (.set [107] [50]))
    (by decide +kernel) (by decide +kernel)

end Writers

end KvStore
