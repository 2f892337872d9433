import Mathlib.Data.List.Basic
import Mathlib.Data.List.Nodup
import Mathlib.Logic.Function.Basic

/-!
# A list and an index into it

Entries stand in a list in any order, and beside it an index says at which position the
entry with a given key is. An entry is taken out by moving the last one into its place,
so one index entry has to be put right when another goes.

`Indexes` says all there is to say about the pair, as one equivalence; that no key
occurs twice follows from it.
-/

namespace KvStore.Lib

variable {α κ : Type} {key : α → κ} {slots : List α} {index : κ → Option Nat}

/-- The index gives the position of every key that there is, and of no other. -/
def Indexes (key : α → κ) (slots : List α) (index : κ → Option Nat) : Prop :=
  ∀ k i, index k = some i ↔ slots[i]?.map key = some k

namespace Indexes

theorem nil : Indexes key [] fun _ => none := by
  intro k i
  simp

theorem nodup (h : Indexes key slots index) : (slots.map key).Nodup := by
  rw [List.nodup_iff_getElem?_ne_getElem?]
  intro i j hij hj heq
  obtain ⟨k, hk⟩ : ∃ k, (slots.map key)[j]? = some k := ⟨_, List.getElem?_eq_getElem hj⟩
  have hi' : index k = some i := (h k i).mpr (by rw [← List.getElem?_map, heq, hk])
  have hj' : index k = some j := (h k j).mpr (by rw [← List.getElem?_map, hk])
  have := Option.some.inj (hi'.symm.trans hj')
  omega

theorem get (h : Indexes key slots index) {k : κ} {i : Nat} (hk : index k = some i) :
    ∃ a, slots[i]? = some a ∧ key a = k := Option.map_eq_some_iff.mp ((h k i).mp hk)

theorem lt (h : Indexes key slots index) {k : κ} {i : Nat} (hk : index k = some i) :
    i < slots.length := by
  obtain ⟨a, ha, _⟩ := h.get hk
  exact (List.getElem?_eq_some_iff.mp ha).1

/-- A key is there if the index knows it. -/
theorem isSome_iff (h : Indexes key slots index) (k : κ) :
    (index k).isSome = true ↔ k ∈ slots.map key := by
  rw [Option.isSome_iff_exists, List.mem_iff_getElem?]
  simp only [List.getElem?_map]
  exact exists_congr fun i => h k i

/-- An entry is where the index says. -/
theorem of_mem (h : Indexes key slots index) {a : α} (ha : a ∈ slots) :
    ∃ i, index (key a) = some i ∧ slots[i]? = some a := by
  obtain ⟨i, hi⟩ := List.mem_iff_getElem?.mp ha
  exact ⟨i, (h _ i).mpr (by rw [hi]; rfl), hi⟩

theorem map_modify (slots : List α) (i : Nat) {f : α → α} (hf : ∀ a, key (f a) = key a) :
    (slots.modify i f).map key = slots.map key := by
  refine List.ext_getElem? fun j => ?_
  rw [List.getElem?_map, List.getElem?_map, List.getElem?_modify]
  cases slots[j]? with
  | none => rfl
  | some a =>
      by_cases hij : i = j
      · simp [hij, hf]
      · simp [hij]

/-- What is done to an entry in its place does not touch the index. -/
theorem modify (h : Indexes key slots index) (i : Nat) {f : α → α} (hf : ∀ a, key (f a) = key a) :
    Indexes key (slots.modify i f) index := by
  intro k j
  rw [h k j, ← List.getElem?_map, ← List.getElem?_map, map_modify slots i hf]

/-- It is done to the entry with that key and to no other. -/
theorem of_mem_modify (h : Indexes key slots index) {k : κ} {i : Nat} (hk : index k = some i)
    {f : α → α} (hf : ∀ a, key (f a) = key a) {a : α} (ha : a ∈ slots.modify i f) :
    (key a = k ∧ ∃ old, a = f old) ∨ (key a ≠ k ∧ a ∈ slots) := by
  obtain ⟨j, hj, hget⟩ := (h.modify i hf).of_mem ha
  rw [List.getElem?_modify] at hget
  obtain ⟨old, hold, rfl⟩ := Option.map_eq_some_iff.mp hget
  obtain ⟨hlt, rfl⟩ := List.getElem?_eq_some_iff.mp hold
  by_cases hij : i = j
  · subst hij
    obtain ⟨b, hb, hbk⟩ := h.get hk
    obtain rfl : slots[i] = b := Option.some.inj (hold.symm.trans hb)
    rw [if_pos rfl, hf]
    exact Or.inl ⟨hbk, _, rfl⟩
  · rw [if_neg hij] at hj ⊢
    refine Or.inr ⟨fun hkey => ?_, List.getElem_mem hlt⟩
    rw [hkey, hk] at hj
    exact hij (Option.some.inj hj)

variable [DecidableEq κ]

/-- A new entry goes to the end. -/
theorem push (h : Indexes key slots index) {a : α} (hnew : index (key a) = none) :
    Indexes key (slots ++ [a]) (Function.update index (key a) (some slots.length)) := by
  intro k i
  have hother := h k i
  -- the slots that were there, the new one, and those beyond
  rcases Nat.lt_trichotomy i slots.length with hlt | rfl | hgt
  · rw [List.getElem?_append_left hlt, ← hother]
    by_cases hk : k = key a
    · subst hk
      rw [Function.update_self, hnew, Option.some.injEq]
      simp only [reduceCtorEq, iff_false]
      omega
    · rw [Function.update_of_ne hk]
  · rw [List.getElem?_append_right (Nat.le_refl _), Nat.sub_self]
    by_cases hk : k = key a
    · subst hk
      simp
    · rw [Function.update_of_ne hk]
      refine iff_of_false (fun hk' => ?_) (by simpa using Ne.symm hk)
      have := h.lt hk'
      omega
  · rw [List.getElem?_eq_none (by rw [List.length_append]; exact hgt)]
    refine iff_of_false (fun hk => ?_) (by simp)
    by_cases hk' : k = key a
    · subst hk'
      rw [Function.update_self] at hk
      have := Option.some.inj hk
      omega
    · rw [Function.update_of_ne hk'] at hk
      have := h.lt hk
      omega

/--
**An entry leaves and the last one takes its place.** If it was itself the last, it is
put in its own place first, and the index entry that was put right is the one that goes.
-/
theorem swapRemove (h : Indexes key slots index) {k : κ} {i : Nat} {last : α}
    (hk : index k = some i) (hlast : slots[slots.length - 1]? = some last) :
    Indexes key (slots.set i last).dropLast
      (Function.update (Function.update index (key last) (some i)) k none) := by
  have hi := h.lt hk
  have hend : index (key last) = some (slots.length - 1) := (h _ _).mpr (by rw [hlast]; rfl)
  intro k' j
  have hother := h k' j
  have hget : (slots.set i last).dropLast[j]?
      = if j < slots.length - 1 then (if i = j then some last else slots[j]?) else none := by
    rw [List.getElem?_dropLast, List.length_set, List.getElem?_set]
    simp [hi]
  rw [hget]
  by_cases hk' : k' = k
  · -- the key that leaves is nowhere else
    subst hk'
    rw [Function.update_self]
    refine iff_of_false (by simp) fun hmap => ?_
    split at hmap
    · rename_i hj
      split at hmap
      · rename_i hij
        rw [Option.map_some, Option.some.injEq] at hmap
        rw [hmap, hk, Option.some.injEq] at hend
        omega
      · rename_i hij
        rw [hk, Option.some.injEq] at hother
        exact hij (hother.mpr hmap)
    · exact absurd hmap (by simp)
  rw [Function.update_of_ne hk']
  by_cases hlk : k' = key last
  · -- the key that moves
    subst hlk
    have hne : i ≠ slots.length - 1 := by
      rintro rfl
      exact hk' (Option.some.inj ((congrArg (Option.map key) hlast).symm.trans ((h k _).mp hk)))
    rw [Function.update_self, Option.some.injEq]
    rw [hend, Option.some.injEq] at hother
    by_cases hij : i = j
    · subst hij
      simp [show i < slots.length - 1 by omega]
    · refine iff_of_false hij fun hmap => ?_
      rw [if_neg hij] at hmap
      split at hmap
      · rename_i hj
        have := hother.mpr hmap
        omega
      · exact absurd hmap (by simp)
  · rw [Function.update_of_ne hlk, hother]
    by_cases hij : i = j
    · subst hij
      rw [(h k i).mp hk]
      have hstay : ¬ some k = some k' := fun heq => hk' (Option.some.inj heq).symm
      refine iff_of_false hstay fun hmap => ?_
      rw [if_pos rfl] at hmap
      split at hmap
      · exact hlk (Option.some.inj hmap).symm
      · exact absurd hmap (by simp)
    · rw [if_neg hij]
      by_cases hj : j < slots.length - 1
      · rw [if_pos hj]
      · rw [if_neg hj]
        refine iff_of_false (fun hmap => ?_) (by simp)
        have hlt := h.lt (hother.mpr hmap)
        obtain rfl : j = slots.length - 1 := by omega
        rw [hlast] at hmap
        exact hlk (Option.some.inj hmap).symm

end Indexes

end KvStore.Lib
