import Mathlib.Data.Option.Basic
import Mathlib.Data.List.Basic

/-!
# Runs

A system is a set of states to start in and a partial step function. Its runs are
lists of actions. Which states can be reached is asked under a condition on the
steps, because that is how the interesting answers come: *whatever* the actions
were, or so long as none of them did a certain thing.
-/

namespace KvStore.Lib

variable {σ α : Type}

/-- The states to start in, and a step, which may be impossible. -/
structure System (σ α : Type) where
  init : σ → Prop
  step : σ → α → Option σ

namespace System

/-- States reached by steps that all meet `ok`, which sees the state before the step. -/
inductive ReachableBy (S : System σ α) (ok : σ → α → Prop) : σ → Prop
  | init {s : σ} : S.init s → ReachableBy S ok s
  | tail {s s' : σ} {a : α} : ReachableBy S ok s → ok s a → S.step s a = some s' →
      ReachableBy S ok s'

/-- States reached by any steps at all. -/
abbrev Reachable (S : System σ α) : σ → Prop := S.ReachableBy fun _ _ => True

variable {S : System σ α} {ok : σ → α → Prop}

/-- **Invariants.** What holds to begin with, and is kept by every step, holds throughout. -/
theorem ReachableBy.invariant {I : σ → Prop} (hinit : ∀ s, S.init s → I s)
    (hstep : ∀ s a s', I s → ok s a → S.step s a = some s' → I s') {s : σ}
    (h : S.ReachableBy ok s) : I s := by
  induction h with
  | init h0 => exact hinit _ h0
  | tail _ hok hs ih => exact hstep _ _ _ ih hok hs

/-- A weaker condition reaches more. -/
theorem ReachableBy.mono {ok' : σ → α → Prop} (hle : ∀ s a, ok s a → ok' s a) {s : σ}
    (h : S.ReachableBy ok s) : S.ReachableBy ok' s := by
  induction h with
  | init h0 => exact .init h0
  | tail _ hok hs ih => exact .tail ih (hle _ _ hok) hs

/-- Carry out a list of actions. -/
def run (S : System σ α) (s : σ) (as : List α) : Option σ := as.foldlM S.step s

theorem reachable_of_run {s s' : σ} {as : List α} (h : S.Reachable s)
    (hrun : S.run s as = some s') :
    S.Reachable s' := by
  induction as generalizing s with
  | nil =>
      cases hrun
      exact h
  | cons a as ih =>
      rw [run, List.foldlM_cons] at hrun
      obtain ⟨s1, hs, hrest⟩ := Option.bind_eq_some_iff.mp hrun
      exact ih (h.tail trivial hs) hrest

/-- **Simulation.** A machine that follows every step follows every run. -/
theorem run_simulates {μ : Type} {R : σ → μ → Prop} {next : μ → α → μ} {p : α → Prop}
    (hstep : ∀ s m a s', R s m → p a → S.step s a = some s' → R s' (next m a)) {s s' : σ} {m : μ}
    {as : List α} (h : R s m) (hp : ∀ a ∈ as, p a) (hrun : S.run s as = some s') :
    R s' (as.foldl next m) := by
  induction as generalizing s m with
  | nil =>
      cases hrun
      exact h
  | cons a as ih =>
      rw [run, List.foldlM_cons] at hrun
      obtain ⟨s1, hs, hrest⟩ := Option.bind_eq_some_iff.mp hrun
      exact ih (hstep _ _ _ _ h (hp a (List.mem_cons_self ..)) hs)
        (fun b hb => hp b (List.mem_cons_of_mem _ hb)) hrest

/-- What every step of a certain kind keeps, every run of such steps keeps. -/
theorem run_invariant_by {I : σ → Prop} {p : α → Prop}
    (hstep : ∀ s a s', I s → p a → S.step s a = some s' → I s') {s s' : σ} {as : List α} (h : I s)
    (hp : ∀ a ∈ as, p a) (hrun : S.run s as = some s') : I s' :=
  @run_simulates σ α S Unit (fun s _ => I s) (fun _ _ => ()) p
    (fun s _ a s' hs ha hnext => hstep s a s' hs ha hnext) s s' () as h hp hrun

/-- What every step keeps, every run keeps. -/
theorem run_invariant {I : σ → Prop} (hstep : ∀ s a s', I s → S.step s a = some s' → I s')
    {s s' : σ} {as : List α} (h : I s) (hrun : S.run s as = some s') : I s' :=
  run_invariant_by (p := fun _ => True) (fun s a s' hs _ hnext => hstep s a s' hs hnext) h
    (fun _ _ => trivial) hrun

/-- **A budget.** If a step of a certain kind costs something and no step gives anything back,
a run has no more steps of that kind than it could pay for. -/
theorem run_within_budget {I : σ → Prop} {budget : σ → Nat} {p : α → Bool}
    (hstep : ∀ s a s', I s → S.step s a = some s' →
      I s' ∧ budget s' + (if p a then 1 else 0) ≤ budget s) {s s' : σ} {as : List α} (h : I s)
    (hrun : S.run s as = some s') : I s' ∧ budget s' + as.countP p ≤ budget s := by
  induction as generalizing s with
  | nil =>
      cases hrun
      exact ⟨h, Nat.le_refl _⟩
  | cons a as ih =>
      rw [run, List.foldlM_cons] at hrun
      obtain ⟨s1, hs, hrest⟩ := Option.bind_eq_some_iff.mp hrun
      obtain ⟨h1, hpaid⟩ := hstep _ _ _ h hs
      obtain ⟨h', hle⟩ := ih h1 hrest
      refine ⟨h', ?_⟩
      rw [List.countP_cons]
      omega

/-- Whether every action of the list is enabled when its turn comes, and meets the condition. -/
def meets (S : System σ α) (ok : σ → α → Prop) [∀ s a, Decidable (ok s a)] (s : σ) :
    List α → Bool
  | [] => true
  | a :: as =>
      match S.step s a with
      | some s' => decide (ok s a) && S.meets ok s' as
      | none => false

/-- A list of actions that can be carried out under the condition reaches a state. -/
theorem reachableBy_of_meets [∀ s a, Decidable (ok s a)] {s : σ} (h : S.ReachableBy ok s)
    {as : List α} (hm : S.meets ok s as = true) :
    ∃ s', S.run s as = some s' ∧ S.ReachableBy ok s' := by
  induction as generalizing s with
  | nil => exact ⟨s, rfl, h⟩
  | cons a as ih =>
      rw [meets] at hm
      cases hs : S.step s a with
      | none => rw [hs] at hm; exact absurd hm (by simp)
      | some s1 =>
          rw [hs] at hm
          obtain ⟨hok, hm⟩ := Bool.and_eq_true_iff.mp hm
          obtain ⟨s', hrun, hr⟩ := ih (h.tail (of_decide_eq_true hok) hs) hm
          refine ⟨s', ?_, hr⟩
          rw [run, List.foldlM_cons, hs]
          exact hrun

/-- What can be seen in the state that a list of actions leads to is seen in a reachable state. -/
theorem exists_reachableBy [∀ s a, Decidable (ok s a)] {s : σ} (h : S.ReachableBy ok s)
    (as : List α) (hm : S.meets ok s as = true) {p : σ → Prop} [∀ s, Decidable (p s)]
    (hp : (S.run s as).any (fun s => decide (p s)) = true) :
    ∃ s', S.ReachableBy ok s' ∧ p s' := by
  obtain ⟨s', hrun, hr⟩ := reachableBy_of_meets h hm
  rw [hrun] at hp
  exact ⟨s', hr, of_decide_eq_true hp⟩

/-- The same for a part of the state that need not be there. -/
theorem exists_reachableBy_some {β : Type} [∀ s a, Decidable (ok s a)] {s : σ}
    (h : S.ReachableBy ok s) (as : List α) (hm : S.meets ok s as = true) {g : σ → Option β}
    {p : σ → β → Prop} [∀ s b, Decidable (p s b)]
    (hp : (S.run s as).any (fun s => (g s).any fun b => decide (p s b)) = true) :
    ∃ s' b, S.ReachableBy ok s' ∧ g s' = some b ∧ p s' b := by
  obtain ⟨s', hrun, hr⟩ := reachableBy_of_meets h hm
  rw [hrun, Option.any_some, Option.any_eq_true] at hp
  obtain ⟨b, hb, hpb⟩ := hp
  exact ⟨s', b, hr, hb, of_decide_eq_true hpb⟩

end System

end KvStore.Lib
