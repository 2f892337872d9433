import KvStore.Lib.Runs
import Mathlib.Data.Fintype.Basic
import Mathlib.Data.List.Perm.Subperm
import Mathlib.Order.WellFounded

/-!
# Locks that are given back at the end

Threads make calls, and a call is a program over cells, each with a lock that many may
share or one may have to itself. A call takes its locks in ascending order, looks at
cells it has locked and changes those it has to itself, and gives the locks back when
it is through. In between, any other thread may do any step that its locks allow.

Two things follow. The calls could as well have been made one after another, in the
order in which they came to their ends. And somebody can always go on.

The first is an invariant. While a thread is on its way, running its call from the
beginning, on the cells as the calls before have left them, is the same as running what
is left of the call on those cells with the thread's own changes laid over them. That is
true of every state of the cells which agrees on those that the thread has locked, so
it stays true when others come to their ends.
-/

namespace KvStore.Lib.TwoPhase

variable {τ κ R V ρ : Type}

/-! ## Calls -/

/-- How a lock is held. -/
inductive Mode where
  | shared
  | exclusive
  deriving DecidableEq, Repr

/-- What is left of a call. -/
inductive Prog (R V ρ : Type) where
  | acquire (i : R) (mode : Mode) (next : Prog R V ρ)
  /-- Change a cell, and go on from what was in it. -/
  | access (i : R) (f : V → V) (next : V → Prog R V ρ)
  | done (result : ρ)

/-- The locks of one thread. -/
abbrev Locks (R : Type) := R → Option Mode

/-- Run the rest of a call with nobody else around. -/
def Prog.eval [DecidableEq R] : Prog R V ρ → (R → V) → (R → V) × ρ
  | .acquire _ _ next, cells => next.eval cells
  | .access i f next, cells => (next (cells i)).eval (Function.update cells i (f (cells i)))
  | .done result, cells => (cells, result)

/-- Locks are taken in ascending order, and before what they are for. -/
inductive Prog.WellFormed [DecidableEq R] [LT R] : Locks R → Prog R V ρ → Prop
  | acquire {held : Locks R} {i : R} {mode : Mode} {next : Prog R V ρ}
      (hlt : ∀ j, held j ≠ none → j < i)
      (hnext : WellFormed (Function.update held i (some mode)) next) :
      WellFormed held (.acquire i mode next)
  | access {held : Locks R} {i : R} {f : V → V} {next : V → Prog R V ρ}
      (hheld : held i = some .exclusive ∨ held i = some .shared ∧ ∀ v, f v = v)
      (hnext : ∀ v, WellFormed held (next v)) : WellFormed held (.access i f next)
  | done {held : Locks R} {result : ρ} : WellFormed held (.done result)

/-- Take several locks. -/
def Prog.lockAll (mode : Mode) (is : List R) (next : Prog R V ρ) : Prog R V ρ :=
  is.foldr (fun i next => .acquire i mode next) next

theorem Prog.eval_lockAll [DecidableEq R] (mode : Mode) (is : List R) (next : Prog R V ρ)
    (cells : R → V) : (lockAll mode is next).eval cells = next.eval cells := by
  induction is with
  | nil => rfl
  | cons i is ih => exact ih

/-- A lock that comes before others, among those that come before them. -/
theorem Locks.before_update [DecidableEq R] [LT R] {held : Locks R} {i : R} {is : List R}
    {mode : Mode} (hi : ∀ k ∈ is, i < k) (hbefore : ∀ j, held j ≠ none → ∀ k ∈ i :: is, j < k) :
    ∀ j, Function.update held i (some mode) j ≠ none → ∀ k ∈ is, j < k := by
  intro j hj k hk
  by_cases hji : j = i
  · rw [hji]
    exact hi k hk
  · rw [Function.update_of_ne hji] at hj
    exact hbefore j hj k (List.mem_cons_of_mem _ hk)

theorem Prog.wellFormed_lockAll [DecidableEq R] [LT R] {mode : Mode} {is : List R} {held : Locks R}
    {next : Prog R V ρ} (hsorted : is.Pairwise (· < ·))
    (hbefore : ∀ j, held j ≠ none → ∀ i ∈ is, j < i)
    (hnext : next.WellFormed fun i => if i ∈ is then some mode else held i) :
    (lockAll mode is next).WellFormed held := by
  induction is generalizing held with
  | nil =>
      simp only [List.not_mem_nil, if_false] at hnext
      exact hnext
  | cons i is ih =>
      obtain ⟨hi, hsorted⟩ := List.pairwise_cons.mp hsorted
      refine .acquire (fun j hj => hbefore j hj i (List.mem_cons_self ..)) ?_
      refine ih hsorted (Locks.before_update hi hbefore) ?_
      convert hnext using 1
      funext j
      by_cases hji : j = i
      · subst hji
        simp
      · simp [hji]

/-! ## Threads -/

/-- A thread is inside its call, or on the way out of it. -/
inductive Phase (R V ρ : Type) where
  | running (rest : Prog R V ρ)
  | returning (result : ρ)

/-- A thread that has made a call, with the locks it holds. -/
structure Thread (κ R V ρ : Type) where
  call : κ
  held : Locks R := fun _ => none
  phase : Phase R V ρ

/-- The cells, and the threads that are at work on them. -/
structure State (τ κ R V ρ : Type) where
  cells : R → V
  threads : τ → Option (Thread κ R V ρ) := fun _ => none
  /-- Ghost: the cells after the calls that have come to their ends, one after another. -/
  serial : R → V
  /-- Ghost: those calls, and their results. -/
  history : List (τ × κ × ρ) := []
  /-- What callers have been told. -/
  returned : List (τ × κ × ρ) := []

/-- In which mode the thread holds the lock. -/
def State.holds (s : State τ κ R V ρ) (t : τ) (i : R) : Option Mode :=
  (s.threads t).bind fun thread => thread.held i

theorem holds_of_threads {s : State τ κ R V ρ} {t : τ} {thread : Thread κ R V ρ}
    (ht : s.threads t = some thread) (i : R) : s.holds t i = thread.held i := by
  rw [State.holds, ht]
  rfl

/-- Whether a thread can be given a lock. -/
def State.Free (s : State τ κ R V ρ) (t : τ) (i : R) : Mode → Prop
  | .exclusive => ∀ u, u ≠ t → s.holds u i = none
  | .shared => ∀ u, u ≠ t → s.holds u i ≠ some .exclusive

instance [Fintype τ] [DecidableEq τ] (s : State τ κ R V ρ) (t : τ) (i : R) :
    (mode : Mode) → Decidable (s.Free t i mode)
  | .exclusive => inferInstanceAs (Decidable (∀ u, u ≠ t → s.holds u i = none))
  | .shared => inferInstanceAs (Decidable (∀ u, u ≠ t → s.holds u i ≠ some .exclusive))

/-- The cells of one thread: its own changes, and otherwise those of the calls before. -/
def overlay (held : Locks R) (cells serial : R → V) : R → V :=
  fun i => if held i = some .exclusive then cells i else serial i

/-- Who goes on, and how. -/
inductive Act (τ κ R : Type) where
  | start (t : τ) (call : κ)
  | step (t : τ)
  | release (t : τ) (i : R)
  | finish (t : τ)
  deriving DecidableEq, Repr

section Step

variable [DecidableEq τ] [DecidableEq R]

/-- The thread is there now. -/
def State.setThread (s : State τ κ R V ρ) (t : τ) (thread : Option (Thread κ R V ρ)) :
    State τ κ R V ρ :=
  { s with threads := Function.update s.threads t thread }

omit [DecidableEq R] in
@[simp] theorem threads_setThread_self (s : State τ κ R V ρ) (t : τ)
    (thread : Option (Thread κ R V ρ)) : (s.setThread t thread).threads t = thread :=
  Function.update_self ..

omit [DecidableEq R] in
theorem threads_setThread_of_ne (s : State τ κ R V ρ) {t u : τ} (hne : u ≠ t)
    (thread : Option (Thread κ R V ρ)) : (s.setThread t thread).threads u = s.threads u :=
  Function.update_of_ne hne ..

/-- The next step of a call that has not come to its end. -/
def advance [Fintype τ] (s : State τ κ R V ρ) (t : τ) (call : κ) (held : Locks R) :
    Prog R V ρ → Option (State τ κ R V ρ)
  | .acquire i mode next =>
      if s.Free t i mode then
        some (s.setThread t (some
          { call := call, held := Function.update held i (some mode), phase := .running next }))
      else none
  | .access i f next =>
      some
        { s.setThread t (some { call := call, held := held, phase := .running (next (s.cells i)) })
        with cells := Function.update s.cells i (f (s.cells i)) }
  | .done result =>
      some { s.setThread t (some { call := call, held := held, phase := .returning result }) with
        serial := overlay held s.cells s.serial
        history := s.history ++ [(t, call, result)] }

/-- A step of a thread. -/
def step [Fintype τ] [Fintype R] (body : κ → Prog R V ρ) (s : State τ κ R V ρ) :
    Act τ κ R → Option (State τ κ R V ρ)
  | .start t call =>
      match s.threads t with
      | none => some (s.setThread t (some { call := call, phase := .running (body call) }))
      | some _ => none
  | .step t =>
      match s.threads t with
      | some { call, held, phase := .running rest } => advance s t call held rest
      | _ => none
  | .release t i =>
      match s.threads t with
      | some { call, held, phase := .returning result } =>
          if held i ≠ none then
            some (s.setThread t (some
              { call := call, held := Function.update held i none, phase := .returning result }))
          else none
      | _ => none
  | .finish t =>
      match s.threads t with
      | some { call, held, phase := .returning result } =>
          if ∀ i, held i = none then
            some { s.setThread t none with returned := s.returned ++ [(t, call, result)] }
          else none
      | _ => none

/-- Threads that have not called yet. -/
def system [Fintype τ] [Fintype R] (body : κ → Prog R V ρ) (cells : R → V) :
    System (State τ κ R V ρ) (Act τ κ R) where
  init s := s = { cells := cells, serial := cells }
  step := step body

/-! ## What a step can do -/

/-- What a step comes to. -/
inductive Stepped (body : κ → Prog R V ρ) (s : State τ κ R V ρ) : State τ κ R V ρ → Prop
  | started {t : τ} {call : κ} (hidle : s.threads t = none) :
      Stepped body s (s.setThread t (some { call := call, phase := .running (body call) }))
  | acquired {t : τ} {call : κ} {held : Locks R} {i : R} {mode : Mode} {next : Prog R V ρ}
      (ht : s.threads t = some
        { call := call, held := held, phase := .running (.acquire i mode next) })
      (hfree : s.Free t i mode) :
      Stepped body s (s.setThread t (some
        { call := call, held := Function.update held i (some mode), phase := .running next }))
  | accessed {t : τ} {call : κ} {held : Locks R} {i : R} {f : V → V} {next : V → Prog R V ρ}
      (ht : s.threads t = some
        { call := call, held := held, phase := .running (.access i f next) }) :
      Stepped body s
        { s.setThread t (some { call := call, held := held, phase := .running (next (s.cells i)) })
          with cells := Function.update s.cells i (f (s.cells i)) }
  | ended {t : τ} {call : κ} {held : Locks R} {result : ρ}
      (ht : s.threads t = some { call := call, held := held, phase := .running (.done result) }) :
      Stepped body s
        { s.setThread t (some { call := call, held := held, phase := .returning result }) with
          serial := overlay held s.cells s.serial
          history := s.history ++ [(t, call, result)] }
  | released {t : τ} {call : κ} {held : Locks R} {result : ρ} {i : R}
      (ht : s.threads t = some { call := call, held := held, phase := .returning result }) :
      Stepped body s (s.setThread t (some
        { call := call, held := Function.update held i none, phase := .returning result }))
  | finished {t : τ} {call : κ} {held : Locks R} {result : ρ}
      (ht : s.threads t = some { call := call, held := held, phase := .returning result })
      (hnone : ∀ i, held i = none) :
      Stepped body s
        { s.setThread t none with returned := s.returned ++ [(t, call, result)] }

theorem step_effect [Fintype τ] [Fintype R] {body : κ → Prog R V ρ} {s s' : State τ κ R V ρ}
    {a : Act τ κ R} (hs : step body s a = some s') : Stepped body s s' := by
  cases a with
  | start t call =>
      rw [step] at hs
      split at hs
      · rename_i hidle
        cases hs
        exact .started hidle
      · exact absurd hs (by simp)
  | step t =>
      rw [step] at hs
      split at hs
      · rename_i call held rest ht
        cases rest with
        | acquire i mode next =>
            rw [advance] at hs
            split at hs
            · rename_i hfree
              cases hs
              exact .acquired ht hfree
            · exact absurd hs (by simp)
        | access i f next =>
            cases hs
            exact .accessed ht
        | done result =>
            cases hs
            exact .ended ht
      · exact absurd hs (by simp)
  | release t i =>
      rw [step] at hs
      split at hs
      · rename_i call held result ht
        split at hs
        · cases hs
          exact .released ht
        · exact absurd hs (by simp)
      · exact absurd hs (by simp)
  | finish t =>
      rw [step] at hs
      split at hs
      · rename_i call held result ht
        split at hs
        · rename_i hnone
          cases hs
          exact .finished ht hnone
        · exact absurd hs (by simp)
      · exact absurd hs (by simp)

/-! ## Locks exclude -/

/-- What one has to itself, nobody else has. -/
def Exclusive (s : State τ κ R V ρ) : Prop :=
  ∀ t u i, t ≠ u → s.holds t i = some .exclusive → s.holds u i = none

variable {body : κ → Prog R V ρ} {s s' : State τ κ R V ρ} {t : τ}

omit [DecidableEq R] in
@[simp] theorem holds_setThread_self (s : State τ κ R V ρ) (t : τ)
    (thread : Option (Thread κ R V ρ))
    (i : R) : (s.setThread t thread).holds t i = thread.bind fun thread => thread.held i := by
  rw [State.holds, threads_setThread_self]

omit [DecidableEq R] in
theorem holds_setThread_of_ne (s : State τ κ R V ρ) {t u : τ} (hne : u ≠ t)
    (thread : Option (Thread κ R V ρ)) (i : R) :
    (s.setThread t thread).holds u i = s.holds u i := by
  rw [State.holds, threads_setThread_of_ne s hne, State.holds]

omit [DecidableEq R] in
theorem exclusive_setThread (h : Exclusive s) {thread : Option (Thread κ R V ρ)}
    (hnew : ∀ i mode, (thread.bind fun thread => thread.held i) = some mode →
      s.holds t i = some mode ∨ s.Free t i mode) : Exclusive (s.setThread t thread) := by
  intro t₁ t₂ i hne hexcl
  by_cases h₁ : t₁ = t
  · subst h₁
    rw [holds_setThread_self] at hexcl
    rw [holds_setThread_of_ne s hne.symm]
    rcases hnew i .exclusive hexcl with hold | hfree
    · exact h t₁ t₂ i hne hold
    · exact hfree t₂ hne.symm
  · rw [holds_setThread_of_ne s h₁] at hexcl
    by_cases h₂ : t₂ = t
    · subst h₂
      rw [holds_setThread_self]
      by_contra hsome
      -- what is new was free, so nobody else had it to itself
      obtain ⟨mode, hmode⟩ := Option.ne_none_iff_exists'.mp hsome
      rcases hnew i mode hmode with hold | hfree
      · rw [h t₁ t₂ i hne hexcl] at hold
        exact absurd hold (by simp)
      · cases mode with
        | exclusive =>
            rw [hfree t₁ h₁] at hexcl
            exact absurd hexcl (by simp)
        | shared => exact hfree t₁ h₁ hexcl
    · rw [holds_setThread_of_ne s h₂]
      exact h t₁ t₂ i hne hexcl

theorem exclusive_step (h : Exclusive s) (hs : Stepped body s s') : Exclusive s' := by
  cases hs with
  | started hidle => exact exclusive_setThread h (by simp)
  | @acquired t call held i mode next ht hfree =>
      refine exclusive_setThread h fun j mode' hmode => ?_
      rw [Option.bind_some] at hmode
      dsimp only at hmode
      by_cases hj : j = i
      · subst hj
        rw [Function.update_self] at hmode
        cases hmode
        exact .inr hfree
      · rw [Function.update_of_ne hj] at hmode
        exact .inl ((holds_of_threads ht j).trans hmode)
  | accessed ht =>
      exact exclusive_setThread h fun j mode hmode => .inl ((holds_of_threads ht j).trans hmode)
  | ended ht =>
      exact exclusive_setThread h fun j mode hmode => .inl ((holds_of_threads ht j).trans hmode)
  -- a lock less than before
  | @released t call held result i ht =>
      refine exclusive_setThread h fun j mode hmode => .inl ?_
      rw [Option.bind_some] at hmode
      dsimp only at hmode
      by_cases hj : j = i
      · subst hj
        rw [Function.update_self] at hmode
        exact absurd hmode (by simp)
      · rw [Function.update_of_ne hj] at hmode
        exact (holds_of_threads ht j).trans hmode
  | finished ht hnone => exact exclusive_setThread h (by simp)

end Step

/-! ## Calls could as well be made one after another -/

section Serial

variable [DecidableEq R] [Preorder R]

/-- The call runs alone on the cells as the calls before have left them. -/
def Going (body : κ → Prog R V ρ) (cells serial : R → V) (call : κ) (held : Locks R)
    (rest : Prog R V ρ) : Prop :=
  rest.WellFormed held ∧ ∀ start, (∀ i, held i ≠ none → start i = serial i) →
    (body call).eval start = rest.eval (overlay held cells start)

variable {body : κ → Prog R V ρ} {cells cells' serial serial' : R → V} {call : κ} {held : Locks R}
  {i : R}

/-- What others do to cells that the thread has not locked is nothing to it. -/
theorem Going.frame {rest : Prog R V ρ} (h : Going body cells serial call held rest)
    (hcells : ∀ i, held i = some .exclusive → cells' i = cells i)
    (hserial : ∀ i, held i ≠ none → serial' i = serial i) :
    Going body cells' serial' call held rest := by
  refine ⟨h.1, fun start hstart => ?_⟩
  rw [h.2 start fun i hi => (hstart i hi).trans (hserial i hi)]
  congr 1
  funext i
  unfold overlay
  split
  · rename_i hexcl
    rw [hcells i hexcl]
  · rfl

theorem going_started (hwf : (body call).WellFormed fun _ => none) :
    Going body cells serial call (fun _ => none) (body call) := ⟨hwf, fun _ _ => rfl⟩

/-- In ascending order no lock is taken twice. -/
theorem Going.free {mode : Mode} {next : Prog R V ρ}
    (h : Going body cells serial call held (.acquire i mode next)) : held i = none := by
  cases h.1 with
  | acquire hlt hnext =>
      by_contra hsome
      exact lt_irrefl i (hlt i hsome)

/-- A cell that nobody has changed is not changed by taking its lock. -/
theorem going_acquired {mode : Mode} {next : Prog R V ρ}
    (h : Going body cells serial call held (.acquire i mode next))
    (hcell : mode = .exclusive → cells i = serial i) :
    Going body cells serial call (Function.update held i (some mode)) next := by
  have hnone := h.free
  obtain ⟨hwf, heval⟩ := h
  cases hwf with
  | acquire hlt hnext =>
      refine ⟨hnext, fun start hstart => ?_⟩
      have hagree : ∀ j, held j ≠ none → start j = serial j := by
        intro j hj
        refine hstart j ?_
        have hne : j ≠ i := fun heq => hj (by rw [heq, hnone])
        rwa [Function.update_of_ne hne]
      -- the locks that are held are more, but the cells that differ are the same
      rw [heval start hagree, Prog.eval]
      congr 1
      funext j
      unfold overlay
      by_cases hj : j = i
      · subst hj
        have hsame := hstart j (by rw [Function.update_self]; simp)
        rw [Function.update_self, hnone, if_neg (by simp)]
        cases mode with
        | exclusive => rw [if_pos rfl, hcell rfl, hsame]
        | shared => rw [if_neg (by simp)]
      · rw [Function.update_of_ne hj]

/-- A thread changes a cell that it has to itself. -/
theorem going_written {f : V → V} {next : V → Prog R V ρ}
    (h : Going body cells serial call held (.access i f next)) (hexcl : held i = some .exclusive) :
    Going body (Function.update cells i (f (cells i))) serial call held (next (cells i)) := by
  obtain ⟨hwf, heval⟩ := h
  cases hwf with
  | access hheld hnext =>
      refine ⟨hnext _, fun start hstart => ?_⟩
      have hcell : overlay held cells start i = cells i := if_pos hexcl
      rw [heval start hstart, Prog.eval, hcell]
      congr 1
      funext j
      unfold overlay
      by_cases hj : j = i
      · subst hj
        rw [Function.update_self, Function.update_self, if_pos hexcl]
      · rw [Function.update_of_ne hj, Function.update_of_ne hj]

/-- A thread reads a cell that it shares. -/
theorem going_read {f : V → V} {next : V → Prog R V ρ}
    (h : Going body cells serial call held (.access i f next)) (hshared : held i = some .shared)
    (hf : ∀ v, f v = v) (hcell : cells i = serial i) :
    Going body cells serial call held (next (cells i)) := by
  obtain ⟨hwf, heval⟩ := h
  cases hwf with
  | access hheld hnext =>
      refine ⟨hnext _, fun start hstart => ?_⟩
      have hsame : overlay held cells start i = cells i := by
        rw [overlay, if_neg (by rw [hshared]; simp), hstart i (by rw [hshared]; simp), hcell]
      rw [heval start hstart, Prog.eval, hf, Function.update_eq_self, hsame]

/-- At its end, a thread has done to the cells what its call does. -/
theorem going_ended {result : ρ} (h : Going body cells serial call held (.done result)) :
    (body call).eval serial = (overlay held cells serial, result) := h.2 serial fun _ _ => rfl

variable [DecidableEq τ] {s s' : State τ κ R V ρ} {t : τ}

/-- What the threads and the cells owe to the calls that have come to their ends. -/
structure Coherent (body : κ → Prog R V ρ) (s : State τ κ R V ρ) : Prop where
  exclusive : Exclusive s
  going : ∀ t call held rest,
    s.threads t = some { call := call, held := held, phase := .running rest } →
    Going body s.cells s.serial call held rest
  /-- Only a thread on its way has changed anything. -/
  unchanged : ∀ i, (∀ t call held rest,
    s.threads t = some { call := call, held := held, phase := .running rest } →
    held i ≠ some .exclusive) → s.cells i = s.serial i

/-- A thread on its way keeps others from changing what it has locked. -/
theorem Coherent.cell_eq (h : Coherent body s)
    {rest : Prog R V ρ}
    (ht : s.threads t = some { call := call, held := held, phase := .running rest })
    (hown : held i ≠ some .exclusive) (hothers : ∀ u, u ≠ t → s.holds u i ≠ some .exclusive) :
    s.cells i = s.serial i := by
  refine h.unchanged i fun u call' held' rest' hu => ?_
  by_cases heq : u = t
  · subst heq
    rw [ht] at hu
    cases hu
    exact hown
  · have hnot := hothers u heq
    rw [holds_of_threads hu] at hnot
    exact hnot

omit [DecidableEq τ] in
/-- Threads that have not locked what was changed go on as before. -/
theorem Coherent.going_others (h : Coherent body s)
    (hcells : ∀ u i, u ≠ t → s.holds u i = some .exclusive → cells' i = s.cells i)
    (hserial : ∀ u i, u ≠ t → s.holds u i ≠ none → serial' i = s.serial i) {u : τ} (hne : u ≠ t)
    {rest : Prog R V ρ}
    (hu : s.threads u = some { call := call, held := held, phase := .running rest }) :
    Going body cells' serial' call held rest := by
  have hholds : ∀ i, s.holds u i = held i := holds_of_threads hu
  refine (h.going u call held rest hu).frame (fun i hi => ?_) fun i hi => ?_
  · exact hcells u i hne (by rw [hholds, hi])
  · exact hserial u i hne (by rw [hholds]; exact hi)

/-- A step that neither changes a cell nor gives up one that was changed. -/
theorem Coherent.setThread (h : Coherent body s) {thread : Option (Thread κ R V ρ)}
    (hexclusive : Exclusive (s.setThread t thread))
    (hgoing : ∀ call held rest,
      thread = some { call := call, held := held, phase := .running rest } →
      Going body s.cells s.serial call held rest)
    (hkeep : ∀ i call held rest,
      s.threads t = some { call := call, held := held, phase := .running rest } →
      held i = some .exclusive → ∃ call' held' rest',
        thread = some { call := call', held := held', phase := .running rest' }
          ∧ held' i = some .exclusive) : Coherent body (s.setThread t thread) := by
  refine ⟨hexclusive, fun u call held rest hu => ?_, fun i hnone => ?_⟩
  · by_cases heq : u = t
    · subst heq
      rw [threads_setThread_self] at hu
      exact hgoing call held rest hu
    · rw [threads_setThread_of_ne s heq] at hu
      exact h.going u call held rest hu
  · refine h.unchanged i fun u call held rest hu hexcl => ?_
    by_cases heq : u = t
    · subst heq
      obtain ⟨call', held', rest', hthread, hexcl'⟩ := hkeep i call held rest hu hexcl
      exact hnone u call' held' rest' (by rw [threads_setThread_self, hthread]) hexcl'
    · exact hnone u call held rest (by rw [threads_setThread_of_ne s heq, hu]) hexcl

/-- An access changes a cell that the thread has to itself, or none. -/
theorem coherent_accessed (h : Coherent body s) {f : V → V} {next : V → Prog R V ρ}
    (ht : s.threads t = some { call := call, held := held, phase := .running (.access i f next) }) :
    Coherent body
      { s.setThread t (some { call := call, held := held, phase := .running (next (s.cells i)) })
        with cells := Function.update s.cells i (f (s.cells i)) } := by
  have hgoing := h.going t call held _ ht
  have hholds : ∀ j, s.holds t j = held j := holds_of_threads ht
  have hexclusive := exclusive_step h.exclusive (show Stepped body s _ from .accessed ht)
  cases hgoing.1 with
  | access hheld hnext =>
      rcases hheld with hexcl | ⟨hshared, hf⟩
      · -- the cell is its own: no other call can see the change
        refine ⟨hexclusive, fun u call' held' rest' hu => ?_, fun j hnone => ?_⟩
        · by_cases heq : u = t
          · subst heq
            have hthread := (threads_setThread_self s u _).symm.trans hu
            cases hthread
            exact going_written hgoing hexcl
          · refine h.going_others (t := t) (fun v j hne hv => ?_) (fun _ _ _ _ => rfl) heq
              ((threads_setThread_of_ne s heq _).symm.trans hu)
            refine Function.update_of_ne (fun hj => ?_) ..
            rw [hj, h.exclusive t v i hne.symm (by rw [hholds, hexcl])] at hv
            exact absurd hv (by simp)
        · have hj : j ≠ i := by
            rintro rfl
            exact hnone t call held _ (threads_setThread_self s t _) hexcl
          dsimp only
          rw [Function.update_of_ne hj]
          refine h.unchanged j fun u call' held' rest' hu => ?_
          by_cases heq : u = t
          · subst heq
            rw [ht] at hu
            cases hu
            exact hnone u call held _ (threads_setThread_self s u _)
          · exact hnone u call' held' rest' ((threads_setThread_of_ne s heq _).trans hu)
      · -- a shared lock: the access reads, and nobody has the cell to itself
        have hcell : s.cells i = s.serial i := by
          refine h.cell_eq ht (by rw [hshared]; simp) fun u hne hu => ?_
          have hnone := h.exclusive u t i hne hu
          rw [hholds, hshared] at hnone
          exact absurd hnone (by simp)
        rw [hf, Function.update_eq_self] at hexclusive ⊢
        refine h.setThread hexclusive ?_ ?_
        · intro call' held' rest' heq
          cases heq
          exact going_read hgoing hshared hf hcell
        · intro j call' held' rest' hu hexcl
          rw [ht] at hu
          cases hu
          exact ⟨call, held, _, rfl, hexcl⟩

/-- At the end of a call the cells it has changed become those that others start from. -/
theorem coherent_ended (h : Coherent body s) {result : ρ}
    (ht : s.threads t = some { call := call, held := held, phase := .running (.done result) }) :
    Coherent body
      { s.setThread t (some { call := call, held := held, phase := .returning result }) with
        serial := overlay held s.cells s.serial
        history := s.history ++ [(t, call, result)] } := by
  have hholds : ∀ j, s.holds t j = held j := holds_of_threads ht
  refine ⟨exclusive_step h.exclusive (show Stepped body s _ from .ended ht),
    fun u call' held' rest' hu => ?_, fun j hnone => ?_⟩
  · by_cases heq : u = t
    · subst heq
      have hthread := (threads_setThread_self s u _).symm.trans hu
      cases hthread
    · -- others have no lock on the cells that are handed over
      refine h.going_others (t := t) (fun _ _ _ _ => rfl) (fun v j hne hv => ?_) heq
        ((threads_setThread_of_ne s heq _).symm.trans hu)
      refine if_neg fun hexcl => hv ?_
      exact h.exclusive t v j hne.symm (by rw [hholds, hexcl])
  · show s.cells j = overlay held s.cells s.serial j
    unfold overlay
    split
    · rfl
    · rename_i hown
      refine h.unchanged j fun u call' held' rest' hu => ?_
      by_cases heq : u = t
      · subst heq
        rw [ht] at hu
        cases hu
        exact hown
      · exact hnone u call' held' rest' ((threads_setThread_of_ne s heq _).trans hu)

theorem coherent_step (hwf : ∀ call, (body call).WellFormed fun _ => none) (h : Coherent body s)
    (hs : Stepped body s s') : Coherent body s' := by
  have hexclusive := exclusive_step h.exclusive hs
  cases hs with
  | @started t call hidle =>
      refine h.setThread hexclusive ?_ ?_
      · intro call' held rest heq
        cases heq
        exact going_started (hwf call)
      · intro i call' held rest ht
        rw [hidle] at ht
        exact absurd ht (by simp)
  | @acquired t call held i mode next ht hfree =>
      have hgoing := h.going t call held _ ht
      refine h.setThread hexclusive ?_ ?_
      · intro call' held' rest' heq
        cases heq
        refine going_acquired hgoing fun hmode => ?_
        subst hmode
        -- a lock that is free for writing: what is in the cell is what was handed over
        refine h.cell_eq ht (by rw [hgoing.free]; simp) fun u hne hu => ?_
        rw [hfree u hne] at hu
        exact absurd hu (by simp)
      · intro j call' held' rest' hu hexcl
        rw [ht] at hu
        cases hu
        refine ⟨call, _, _, rfl, ?_⟩
        have hj : j ≠ i := by
          rintro rfl
          rw [hgoing.free] at hexcl
          exact absurd hexcl (by simp)
        rw [Function.update_of_ne hj, hexcl]
  | accessed ht => exact coherent_accessed h ht
  | ended ht => exact coherent_ended h ht
  | released ht =>
      refine h.setThread hexclusive ?_ ?_
      · intro call' held' rest' heq
        cases heq
      · intro j call' held' rest' hu
        rw [ht] at hu
        cases hu
  | finished ht hnone =>
      have hafter := h.setThread (show Exclusive (s.setThread _ none) from hexclusive) (by simp) ?_
      · exact ⟨hafter.exclusive, hafter.going, hafter.unchanged⟩
      · intro j call' held' rest' hu
        rw [ht] at hu
        cases hu

end Serial

/-! ## The order of their ends -/

section Ends

/-- Each call of the list has the result that it has on the cells left by those before it. -/
def Replays [DecidableEq R] (body : κ → Prog R V ρ) : (R → V) → List (τ × κ × ρ) → (R → V) → Prop
  | start, [], cells => cells = start
  | start, (_, call, result) :: history, cells =>
      ((body call).eval start).2 = result ∧ Replays body ((body call).eval start).1 history cells

theorem Replays.concat [DecidableEq R] {body : κ → Prog R V ρ} {cells start : R → V}
    {history : List (τ × κ × ρ)} (h : Replays body start history cells) (t : τ) (call : κ) :
    Replays body start (history ++ [(t, call, ((body call).eval cells).2)])
      ((body call).eval cells).1 := by
  induction history generalizing start with
  | nil =>
      cases h
      exact ⟨rfl, rfl⟩
  | cons entry history ih => exact ⟨h.1, ih h.2⟩

/-- These are the calls that have come to their ends and are about to return, one of a thread. -/
def AboutToReturn (s : State τ κ R V ρ) (pending : List (τ × κ × ρ)) : Prop :=
  (pending.map Prod.fst).Nodup
    ∧ ∀ t call result, (t, call, result) ∈ pending ↔ ∃ held,
      s.threads t = some { call := call, held := held, phase := .returning result }

/-- What has ended has been returned, or is about to be. -/
def HistoryReturns (s : State τ κ R V ρ) : Prop :=
  ∃ pending, s.history.Perm (s.returned ++ pending) ∧ AboutToReturn s pending

variable [DecidableEq τ] {s s' : State τ κ R V ρ} {t : τ} {call : κ} {held : Locks R}

/-- A step of a thread that does not change what it is about to return. -/
theorem HistoryReturns.setThread (h : HistoryReturns s) {thread : Option (Thread κ R V ρ)}
    (hsame : ∀ call result,
      (∃ held, thread = some { call := call, held := held, phase := .returning result })
        ↔ ∃ held, s.threads t = some { call := call, held := held, phase := .returning result }) :
    HistoryReturns (s.setThread t thread) := by
  obtain ⟨pending, hperm, hnodup, hpending⟩ := h
  refine ⟨pending, hperm, hnodup, fun u call result => ?_⟩
  rw [hpending]
  by_cases heq : u = t
  · subst heq
    rw [threads_setThread_self]
    exact (hsame call result).symm
  · rw [threads_setThread_of_ne s heq]

theorem historyReturns_ended (h : HistoryReturns s) {result : ρ}
    (ht : s.threads t = some { call := call, held := held, phase := .running (.done result) }) :
    HistoryReturns
      { s.setThread t (some { call := call, held := held, phase := .returning result }) with
        serial := overlay held s.cells s.serial
        history := s.history ++ [(t, call, result)] } := by
  obtain ⟨pending, hperm, hnodup, hpending⟩ := h
  -- a thread that is still running has nothing to return
  have hnot : ∀ call' result', (t, call', result') ∉ pending := by
    intro call' result' hmem
    obtain ⟨held', ht'⟩ := (hpending t call' result').mp hmem
    rw [ht] at ht'
    exact absurd ht' (by simp)
  refine ⟨pending ++ [(t, call, result)], ?_, ?_, fun u call' result' => ?_⟩
  · rw [← List.append_assoc]
    exact hperm.append_right _
  · rw [List.map_append, List.map_singleton]
    refine List.nodup_append.mpr ⟨hnodup, List.nodup_singleton _, ?_⟩
    rintro u hu v hv rfl
    obtain ⟨⟨u, call', result'⟩, hmem, rfl⟩ := List.mem_map.mp hu
    have huv : u = t := List.mem_singleton.mp hv
    exact hnot call' result' (huv ▸ hmem)
  · rw [List.mem_append, List.mem_singleton]
    by_cases heq : u = t
    · subst heq
      dsimp only
      rw [threads_setThread_self]
      constructor
      · rintro (hmem | heq)
        · exact absurd hmem (hnot call' result')
        · cases heq
          exact ⟨held, rfl⟩
      · rintro ⟨held', heq⟩
        cases heq
        exact .inr rfl
    · dsimp only
      rw [threads_setThread_of_ne s heq, hpending]
      exact or_iff_left (by rintro ⟨⟩; exact heq rfl)

theorem historyReturns_finished (h : HistoryReturns s) {result : ρ}
    (ht : s.threads t = some { call := call, held := held, phase := .returning result }) :
    HistoryReturns { s.setThread t none with returned := s.returned ++ [(t, call, result)] } := by
  obtain ⟨pending, hperm, hnodup, hpending⟩ := h
  have hmem : (t, call, result) ∈ pending := (hpending t call result).mpr ⟨held, ht⟩
  obtain ⟨before, after, rfl⟩ := List.append_of_mem hmem
  refine ⟨before ++ after, ?_, ?_, fun u call' result' => ?_⟩
  · refine hperm.trans ?_
    rw [List.append_assoc]
    exact (List.perm_middle).append_left _
  · refine hnodup.sublist (List.Sublist.map _ ?_)
    exact List.Sublist.append_left (List.sublist_cons_self _ _) _
  · by_cases heq : u = t
    · subst heq
      dsimp only
      rw [threads_setThread_self]
      refine iff_of_false (fun hmem' => ?_) (by simp)
      -- its entry was the only one of the thread
      rw [List.map_append, List.map_cons] at hnodup
      have hfirst := (List.nodup_middle.mp hnodup).notMem
      rw [← List.map_append] at hfirst
      exact hfirst (List.mem_map.mpr ⟨_, hmem', rfl⟩)
    · dsimp only
      rw [threads_setThread_of_ne s heq, ← hpending]
      simp [heq]

theorem historyReturns_step [DecidableEq R] {body : κ → Prog R V ρ} (h : HistoryReturns s)
    (hs : Stepped body s s') :
    HistoryReturns s' := by
  cases hs with
  | started hidle => exact h.setThread (by simp [hidle])
  | acquired ht hfree => exact h.setThread (by simp [ht])
  | @accessed t call held i f next ht =>
      have hafter : HistoryReturns (s.setThread t (some
          { call := call, held := held, phase := .running (next (s.cells i)) })) :=
        h.setThread (by simp [ht])
      exact hafter
  | ended ht => exact historyReturns_ended h ht
  | released ht => exact h.setThread (by simp [ht])
  | finished ht hnone => exact historyReturns_finished h ht

end Ends

/-! ## Every run -/

section Runs

variable [DecidableEq R] [Preorder R] {body : κ → Prog R V ρ}

/-- The state of the calls, and where it comes from. -/
structure Serializes (body : κ → Prog R V ρ) (start : R → V) (s : State τ κ R V ρ) : Prop where
  coherent : Coherent body s
  replays : Replays body start s.history s.serial
  returns : HistoryReturns s

/-- With nobody on the way, the cells are as the calls have left them. -/
theorem Coherent.cells_eq {s : State τ κ R V ρ} (h : Coherent body s)
    (hquiet : ∀ t, s.threads t = none) : s.cells = s.serial := by
  funext i
  refine h.unchanged i fun t call held rest ht => ?_
  rw [hquiet t] at ht
  exact absurd ht (by simp)

variable [DecidableEq τ] {s s' : State τ κ R V ρ}

theorem serializes_step (hwf : ∀ call, (body call).WellFormed fun _ => none) {start : R → V}
    (h : Serializes body start s) (hs : Stepped body s s') : Serializes body start s' := by
  refine ⟨coherent_step hwf h.coherent hs, ?_, historyReturns_step h.returns hs⟩
  cases hs with
  | @ended t call held result ht =>
      have heval := going_ended (h.coherent.going t call held _ ht)
      have hnext := h.replays.concat t call
      rw [heval] at hnext
      exact hnext
  | _ => exact h.replays

/-- **Serial order.** What every thread was told comes from the calls made one after another. -/
theorem serializes_reachable [Fintype τ] [Fintype R]
    (hwf : ∀ call, (body call).WellFormed fun _ => none) {start : R → V}
    (h : (system body start).Reachable s) : Serializes body start s := by
  refine h.invariant (I := Serializes body start) ?_
    fun _ _ _ hs _ hstep => serializes_step hwf hs (step_effect hstep)
  rintro s rfl
  refine ⟨⟨by simp [Exclusive, State.holds], by simp, fun _ _ => rfl⟩, rfl, [], ?_, ?_, ?_⟩
  · exact List.Perm.refl _
  · exact List.nodup_nil
  · simp

end Runs

/-! ## Somebody can always go on -/

section Progress

variable [DecidableEq R] {body : κ → Prog R V ρ} {s : State τ κ R V ρ} {t : τ}

/-- A thread that cannot go on waits for a lock. -/
theorem waits [DecidableEq τ] [Fintype τ] [Fintype R]
    (hstuck : ∀ a, (∀ u call, a ≠ .start u call) → step body s a = none)
    {thread : Thread κ R V ρ} (ht : s.threads t = some thread) :
    ∃ call held i mode next,
      s.threads t = some { call := call, held := held, phase := .running (.acquire i mode next) }
        ∧ ¬ s.Free t i mode := by
  obtain ⟨call, held, phase⟩ := thread
  cases phase with
  | running rest =>
      have hnone := hstuck (.step t) (by simp)
      rw [step, ht] at hnone
      cases rest with
      | acquire i mode next =>
          refine ⟨call, held, i, mode, next, ht, fun hfree => ?_⟩
          dsimp only at hnone
          rw [advance, if_pos hfree] at hnone
          exact absurd hnone (by simp)
      | access i f next => exact absurd hnone (by simp [advance])
      | done result => exact absurd hnone (by simp [advance])
  -- a call that has ended can always give a lock back, or finish
  | returning result =>
      by_cases hall : ∀ i, held i = none
      · have hnone := hstuck (.finish t) (by simp)
        rw [step, ht] at hnone
        dsimp only at hnone
        rw [if_pos hall] at hnone
        exact absurd hnone (by simp)
      · obtain ⟨i, hi⟩ := not_forall.mp hall
        have hnone := hstuck (.release t i) (by simp)
        rw [step, ht] at hnone
        dsimp only at hnone
        rw [if_pos hi] at hnone
        exact absurd hnone (by simp)

omit [DecidableEq R] in
/-- A lock that is not free is held by somebody else. -/
theorem exists_holds {i : R} {mode : Mode} (h : ¬ s.Free t i mode) :
    ∃ u, u ≠ t ∧ s.holds u i ≠ none := by
  cases mode with
  | exclusive =>
      obtain ⟨u, hu⟩ := not_forall.mp h
      obtain ⟨hne, hsome⟩ := Classical.not_imp.mp hu
      exact ⟨u, hne, hsome⟩
  | shared =>
      obtain ⟨u, hu⟩ := not_forall.mp h
      obtain ⟨hne, hsome⟩ := Classical.not_imp.mp hu
      exact ⟨u, hne, by rw [not_not.mp hsome]; simp⟩

/--
**No deadlock.** Of the threads that wait, take one that waits for the last lock. Whoever
has that lock waits for none, since it would have to be a later one.
-/
theorem progress [DecidableEq τ] [Fintype τ] [Fintype R] [Preorder R] [WellFoundedGT R]
    (h : Coherent body s) {thread : Thread κ R V ρ} (ht : s.threads t = some thread) :
    ∃ a, (∀ u call, a ≠ .start u call) ∧ (step body s a).isSome = true := by
  by_contra hno
  have hstuck : ∀ a, (∀ u call, a ≠ .start u call) → step body s a = none := by
    intro a ha
    by_contra hsome
    exact hno ⟨a, ha, Option.isSome_iff_ne_none.mpr hsome⟩
  let awaited : Set R := fun i => ∃ u call held mode next,
    s.threads u = some { call := call, held := held, phase := .running (.acquire i mode next) }
      ∧ ¬ s.Free u i mode
  have hne : awaited.Nonempty := by
    obtain ⟨call, held, i, mode, next, hwait⟩ := waits hstuck ht
    exact ⟨i, t, call, held, mode, next, hwait⟩
  obtain ⟨i, ⟨u, call, held, mode, next, hu, hbusy⟩, hlast⟩ :=
    WellFounded.has_min (wellFounded_gt (α := R)) awaited hne
  obtain ⟨v, -, hholds⟩ := exists_holds hbusy
  obtain ⟨threadv, hv⟩ : ∃ threadv, s.threads v = some threadv := by
    rw [State.holds] at hholds
    cases hv : s.threads v with
    | none => rw [hv] at hholds; exact absurd rfl hholds
    | some threadv => exact ⟨threadv, rfl⟩
  obtain ⟨callv, heldv, j, modev, nextv, hwait, hbusyv⟩ := waits hstuck hv
  rw [holds_of_threads hwait] at hholds
  -- it holds the last lock that is waited for, and waits for one after it
  refine hlast j ⟨v, callv, heldv, modev, nextv, hwait, hbusyv⟩ ?_
  cases (h.going v callv heldv _ hwait).1 with
  | acquire hlt hnext => exact hlt i hholds

end Progress

end KvStore.Lib.TwoPhase
