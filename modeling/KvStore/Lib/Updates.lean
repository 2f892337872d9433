import Mathlib.Algebra.BigOperators.Group.List.Basic
import Mathlib.Algebra.GroupWithZero.Nat
import Mathlib.Data.List.Induction
import Mathlib.Logic.Function.Basic

/-!
# Keyed updates

A partial map and a list of updates to it, each of one key. All that matters
about a list of updates is what it leaves at every key, so two lists that touch
no key in common can be exchanged. That is the whole theory of reordering: a
batch of updates can be moved past another exactly when they do not meet.
-/

namespace KvStore.Lib

variable {K V : Type}

/-- One key and what it becomes. -/
abbrev Update (K V : Type) := K × Option V

/-- What the first map has, the second has too. -/
def Within (m g : K → Option V) : Prop := ∀ k v, m k = some v → g k = some v

theorem Within.refl (m : K → Option V) : Within m m := fun _ _ h => h

theorem Within.trans {m g f : K → Option V} (h : Within m g) (h' : Within g f) : Within m f :=
  fun k v hk => h' k v (h k v hk)

/-- The updates that put every entry where it is. -/
def puts (es : List (K × V)) : List (Update K V) := es.map fun e => (e.1, some e.2)

theorem keys_puts (es : List (K × V)) : (puts es).map Prod.fst = es.map Prod.fst := by
  rw [puts, List.map_map]
  rfl

variable [DecidableEq K]

/-- Carry out updates from left to right. -/
def runUpdates (us : List (Update K V)) (m : K → Option V) : K → Option V :=
  us.foldl (fun m u => Function.update m u.1 u.2) m

@[simp] theorem runUpdates_nil (m : K → Option V) : runUpdates [] m = m := rfl

@[simp] theorem runUpdates_cons (u : Update K V) (us : List (Update K V)) (m : K → Option V) :
    runUpdates (u :: us) m = runUpdates us (Function.update m u.1 u.2) := rfl

theorem runUpdates_append (us vs : List (Update K V)) (m : K → Option V) :
    runUpdates (us ++ vs) m = runUpdates vs (runUpdates us m) := List.foldl_append

/-- No key is touched by both lists. -/
def Apart (us vs : List (Update K V)) : Prop := ∀ u ∈ us, ∀ v ∈ vs, u.1 ≠ v.1

instance (us vs : List (Update K V)) : Decidable (Apart us vs) :=
  inferInstanceAs (Decidable (∀ u ∈ us, ∀ v ∈ vs, u.1 ≠ v.1))

/-- An update moves past a list that does not touch its key. -/
theorem runUpdates_update {us : List (Update K V)} {k : K} (o : Option V) (m : K → Option V)
    (h : ∀ u ∈ us, u.1 ≠ k) :
    runUpdates us (Function.update m k o) = Function.update (runUpdates us m) k o := by
  induction us generalizing m with
  | nil => rfl
  | cons u us ih =>
      have hu : u.1 ≠ k := h u (List.mem_cons_self ..)
      rw [runUpdates_cons, runUpdates_cons, Function.update_comm hu.symm]
      exact ih _ (fun x hx => h x (List.mem_cons_of_mem _ hx))

/-- **Lists of updates that do not meet can be exchanged.** -/
theorem runUpdates_comm {us vs : List (Update K V)} (m : K → Option V) (h : Apart us vs) :
    runUpdates us (runUpdates vs m) = runUpdates vs (runUpdates us m) := by
  induction vs generalizing m with
  | nil => rfl
  | cons v vs ih =>
      have hv : ∀ u ∈ us, u.1 ≠ v.1 := fun u hu => h u hu v (List.mem_cons_self ..)
      rw [runUpdates_cons, runUpdates_cons, ← runUpdates_update v.2 m hv]
      exact ih _ (fun u hu w hw => h u hu w (List.mem_cons_of_mem _ hw))

/-- Updates bring two maps closer together, never further apart. -/
theorem runUpdates_within {m g : K → Option V} (h : Within m g) (us : List (Update K V)) :
    Within (runUpdates us m) (runUpdates us g) := by
  induction us generalizing m g with
  | nil => exact h
  | cons u us ih =>
      rw [runUpdates_cons, runUpdates_cons]
      refine ih fun k v hk => ?_
      by_cases hu : k = u.1
      · subst hu
        rwa [Function.update_self] at hk ⊢
      · rw [Function.update_of_ne hu] at hk ⊢
        exact h k v hk

/-! ## What a map of updates owes to them -/

theorem runUpdates_concat (us : List (Update K V)) (u : Update K V) (m : K → Option V) :
    runUpdates (us ++ [u]) m = Function.update (runUpdates us m) u.1 u.2 :=
  runUpdates_append us [u] m

/-- A value is there because it was there, or because some update put it there. -/
theorem runUpdates_eq_some {us : List (Update K V)} {m : K → Option V} {k : K} {v : V}
    (h : runUpdates us m k = some v) : m k = some v ∨ (k, some v) ∈ us := by
  induction us using List.reverseRecOn with
  | nil => exact .inl h
  | append_singleton us u ih =>
      rw [runUpdates_concat] at h
      by_cases hu : k = u.1
      · subst hu
        rw [Function.update_self] at h
        rw [← h]
        exact .inr (by simp)
      · rw [Function.update_of_ne hu] at h
        exact (ih h).imp id (List.mem_append_left _)

theorem mem_of_runUpdates {us : List (Update K V)} {k : K} {v : V}
    (h : runUpdates us (fun _ => none) k = some v) : (k, some v) ∈ us :=
  (runUpdates_eq_some h).resolve_left (by simp)

/-- What is left at a key depends on what was there at that key. -/
theorem runUpdates_congr_at {us : List (Update K V)} {m m' : K → Option V} {k : K}
    (h : m k = m' k) : runUpdates us m k = runUpdates us m' k := by
  induction us using List.reverseRecOn with
  | nil => exact h
  | append_singleton us u ih =>
      rw [runUpdates_concat, runUpdates_concat]
      by_cases hu : k = u.1
      · subst hu
        rw [Function.update_self, Function.update_self]
      · rw [Function.update_of_ne hu, Function.update_of_ne hu, ih]

theorem runUpdates_of_not_mem {us : List (Update K V)} {m : K → Option V} {k : K}
    (h : k ∉ us.map Prod.fst) : runUpdates us m k = m k := by
  induction us using List.reverseRecOn with
  | nil => rfl
  | append_singleton us u ih =>
      rw [List.map_append, List.mem_append, not_or] at h
      have hne : k ≠ u.1 := fun heq => h.2 (by simp [heq])
      rw [runUpdates_concat, Function.update_of_ne hne, ih h.1]

/-- The last update of a key is the one that counts. -/
theorem runUpdates_eq_last (us : List (Update K V)) (m : K → Option V) (k : K) :
    runUpdates us m k = ((us.reverse.find? fun u => u.1 = k).map Prod.snd).getD (m k) := by
  induction us using List.reverseRecOn with
  | nil => rfl
  | append_singleton us u ih =>
      rw [runUpdates_concat, List.reverse_append, List.reverse_singleton, List.singleton_append,
        List.find?_cons]
      by_cases hk : u.1 = k
      · subst hk
        simp
      · rw [Function.update_of_ne (Ne.symm hk), ih]
        simp [hk]

theorem runUpdates_puts {es : List (K × V)} (hnodup : (es.map Prod.fst).Nodup) (k : K) (v : V) :
    runUpdates (puts es) (fun _ => none) k = some v ↔ (k, v) ∈ es := by
  constructor
  · intro h
    obtain ⟨e, he, heq⟩ := List.mem_map.mp (mem_of_runUpdates h)
    obtain ⟨rfl, hv⟩ := Prod.mk.inj heq
    cases hv
    exact he
  · intro h
    obtain ⟨front, back, rfl⟩ := List.append_of_mem h
    -- nothing behind it has the same key
    have hback : k ∉ (puts back).map Prod.fst := by
      rw [List.map_append, List.map_cons] at hnodup
      rw [keys_puts]
      exact (List.nodup_cons.mp (List.nodup_append.mp hnodup).2.1).1
    rw [puts, List.map_append, List.map_cons, runUpdates_append, runUpdates_cons]
    exact (runUpdates_of_not_mem hback).trans (Function.update_self ..)

/--
Entries that are what a list of updates leaves cost no more than the updates: each
is owed to an update of its own.
-/
theorem sum_le_of_runUpdates (cost : K → V → Nat) {us : List (Update K V)} {es : List (K × V)}
    (hnodup : (es.map Prod.fst).Nodup)
    (h : ∀ e ∈ es, runUpdates us (fun _ => none) e.1 = some e.2) :
    (es.map fun e => cost e.1 e.2).sum ≤ (us.map fun u => u.2.elim 0 (cost u.1)).sum := by
  induction us using List.reverseRecOn generalizing es with
  | nil =>
      cases es with
      | nil => exact Nat.le_refl _
      | cons e es => exact absurd (h e (List.mem_cons_self ..)) (by simp)
  | append_singleton us u ih =>
      rw [List.map_append, List.sum_append]
      by_cases hu : u.1 ∈ es.map Prod.fst
      · -- the last update is the one the entry of its key is owed to
        obtain ⟨⟨k, v⟩, he, hk⟩ := List.mem_map.mp hu
        dsimp only at hk
        subst hk
        obtain ⟨front, back, rfl⟩ := List.append_of_mem he
        have hperm : (front ++ (u.1, v) :: back).Perm ((u.1, v) :: (front ++ back)) :=
          List.perm_middle
        have hkeys := (hperm.map Prod.fst).nodup_iff.mp hnodup
        rw [List.map_cons, List.nodup_cons] at hkeys
        have hv := h _ he
        rw [runUpdates_concat, Function.update_self] at hv
        have hothers : ∀ e ∈ front ++ back, runUpdates us (fun _ => none) e.1 = some e.2 := by
          intro e hin
          have hne : e.1 ≠ u.1 := fun heq => hkeys.1 (heq ▸ List.mem_map_of_mem hin)
          have hval := h e (hperm.mem_iff.mpr (List.mem_cons_of_mem _ hin))
          rwa [runUpdates_concat, Function.update_of_ne hne] at hval
        have hrest := ih hkeys.2 hothers
        have hlast : ([u].map fun u : Update K V => u.2.elim 0 (cost u.1)).sum = cost u.1 v := by
          simp [hv]
        rw [(hperm.map fun e => cost e.1 e.2).sum_eq, List.map_cons, List.sum_cons, hlast]
        dsimp only
        omega
      · refine Nat.le_add_right_of_le (ih hnodup fun e he => ?_)
        have hne : e.1 ≠ u.1 := fun heq => hu (heq ▸ List.mem_map_of_mem he)
        have hval := h e he
        rwa [runUpdates_concat, Function.update_of_ne hne] at hval

end KvStore.Lib
