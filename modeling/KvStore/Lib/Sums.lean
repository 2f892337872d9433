import Mathlib.Algebra.BigOperators.Fin

/-!
# A sum of which one term changes

A total over the members of a family, where one of them becomes another. The old total with
the new term is the new total with the old one, which is the way to say it where nothing can
be subtracted: the terms may be numbers, or bags.
-/

namespace KvStore.Lib

variable {ι α M : Type} [Fintype ι] [DecidableEq ι] [AddCommMonoid M]

/-- Two families that differ in one place. -/
theorem sum_add_of_eq_off {f g : ι → M} {i : ι} (h : ∀ j, j ≠ i → g j = f j) :
    ∑ j, g j + f i = ∑ j, f j + g i := by
  have hrest : ∑ j ∈ Finset.univ.erase i, g j = ∑ j ∈ Finset.univ.erase i, f j :=
    Finset.sum_congr rfl fun j hj => h j (Finset.ne_of_mem_erase hj)
  rw [← Finset.sum_erase_add _ g (Finset.mem_univ i),
    ← Finset.sum_erase_add _ f (Finset.mem_univ i),
    hrest, add_right_comm]

/-- What the members weigh, when one of them is replaced. -/
theorem sum_weight_update (weight : α → M) (f : ι → α) (i : ι) (x : α) :
    ∑ j, weight (Function.update f i x j) + weight (f i) = ∑ j, weight (f j) + weight x := by
  have hsum := @sum_add_of_eq_off ι M _ _ _ (fun j => weight (f j))
    (fun j => weight (Function.update f i x j)) i
    fun j hne => by rw [Function.update_of_ne hne]
  rwa [Function.update_self] at hsum

end KvStore.Lib
