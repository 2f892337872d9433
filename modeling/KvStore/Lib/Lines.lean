import Mathlib.Data.List.Basic

/-!
# Lines

A list cut at a separator: at the first one, and at all of them. What is behind the
last separator is not a line, but may still become the beginning of one.
-/

namespace KvStore.Lib

variable {α : Type} [DecidableEq α] {sep : α}

/-- What is in front of the first separator, and what is behind it. -/
def cutLine (sep : α) : List α → Option (List α × List α)
  | [] => none
  | a :: as => if a = sep then some ([], as) else (cutLine sep as).map fun r => (a :: r.1, r.2)

/-- All lines, and what is behind the last of them. -/
def splitLines (sep : α) : List α → List (List α) × List α
  | [] => ([], [])
  | a :: as =>
      let r := splitLines sep as
      if a = sep then ([] :: r.1, r.2)
      else
        match r.1 with
        | [] => ([], a :: r.2)
        | l :: ls => ((a :: l) :: ls, r.2)

theorem cutLine_eq_none {as : List α} : cutLine sep as = none ↔ sep ∉ as := by
  induction as with
  | nil => simp [cutLine]
  | cons a as ih =>
      rw [cutLine, List.mem_cons, not_or]
      split
      · rename_i ha
        simp [ha]
      · rename_i ha
        rw [Option.map_eq_none_iff, ih]
        exact ⟨fun h => ⟨Ne.symm ha, h⟩, fun h => h.2⟩

theorem cutLine_eq_some {as l r : List α} :
    cutLine sep as = some (l, r) ↔ as = l ++ sep :: r ∧ sep ∉ l := by
  induction as generalizing l with
  | nil => simp [cutLine]
  | cons a as ih =>
      rw [cutLine]
      split
      · rename_i ha
        subst ha
        cases l with
        | nil => simp
        | cons b l => simp +contextual
      · rename_i ha
        cases l with
        | nil => simp [ha]
        | cons b l =>
            rw [Option.map_eq_some_iff]
            constructor
            · rintro ⟨⟨l', r'⟩, h, heq⟩
              cases heq
              obtain ⟨rfl, hl⟩ := ih.mp h
              exact ⟨rfl, by simp [Ne.symm ha, hl]⟩
            · rintro ⟨heq, hl⟩
              cases heq
              exact ⟨(l, r), ih.mpr ⟨rfl, fun h => hl (List.mem_cons_of_mem _ h)⟩, rfl⟩

/-- More input behind a line is more input behind that line. -/
theorem cutLine_append {as l r : List α} (h : cutLine sep as = some (l, r)) (bs : List α) :
    cutLine sep (as ++ bs) = some (l, r ++ bs) := by
  obtain ⟨rfl, hl⟩ := cutLine_eq_some.mp h
  exact cutLine_eq_some.mpr ⟨by simp, hl⟩

theorem length_of_cutLine {as l r : List α} (h : cutLine sep as = some (l, r)) :
    r.length < as.length := by
  obtain ⟨rfl, -⟩ := cutLine_eq_some.mp h
  rw [List.length_append, List.length_cons]
  omega

theorem splitLines_of_cutLine_none {as : List α} (h : cutLine sep as = none) :
    splitLines sep as = ([], as) := by
  have hmem := cutLine_eq_none.mp h
  clear h
  induction as with
  | nil => rfl
  | cons a as ih =>
      rw [List.mem_cons, not_or] at hmem
      rw [splitLines, ih hmem.2, if_neg (Ne.symm hmem.1)]

theorem splitLines_of_cutLine {as l r : List α} (h : cutLine sep as = some (l, r)) :
    splitLines sep as = (l :: (splitLines sep r).1, (splitLines sep r).2) := by
  obtain ⟨rfl, hl⟩ := cutLine_eq_some.mp h
  clear h
  induction l with
  | nil => simp [splitLines]
  | cons b l ih =>
      rw [List.mem_cons, not_or] at hl
      rw [List.cons_append, splitLines, ih hl.2, if_neg (Ne.symm hl.1)]

/-- The only separator is the last element, so that nothing is behind the line. -/
theorem cutLine_append_last {as bs l r : List α} (hfront : cutLine sep as = none)
    (hlast : sep ∉ bs.dropLast) (hcut : cutLine sep (as ++ bs) = some (l, r)) : r = [] := by
  obtain ⟨heq, -⟩ := cutLine_eq_some.mp hcut
  have has := cutLine_eq_none.mp hfront
  by_contra hr
  have hbs : bs ≠ [] := by
    intro hnil
    rw [hnil, List.append_nil] at heq
    exact has (heq ▸ by simp)
  have hmem : sep ∈ (as ++ bs).dropLast := by
    rw [heq, List.dropLast_append_of_ne_nil (List.cons_ne_nil _ _), List.dropLast_cons_of_ne_nil hr]
    simp
  rw [List.dropLast_append_of_ne_nil hbs] at hmem
  exact (List.mem_append.mp hmem).elim has hlast

/-- To show something of a list, take off one line after another. -/
@[elab_as_elim]
theorem lineInduction (sep : α) {motive : List α → Prop}
    (rest : ∀ as, cutLine sep as = none → motive as)
    (line : ∀ as l r, cutLine sep as = some (l, r) → motive r → motive as) (as : List α) :
    motive as := by
  induction hn : as.length using Nat.strongRecOn generalizing as with
  | ind n ih =>
      cases hcut : cutLine sep as with
      | none => exact rest as hcut
      | some lr =>
          obtain ⟨l, r⟩ := lr
          exact line as l r hcut (ih r.length (hn ▸ length_of_cutLine hcut) r rfl)

/-- What has arrived of a line is the beginning of it. -/
theorem cutLine_append_of_none {as : List α} (hnone : cutLine sep as = none) (bs : List α) :
    cutLine sep (as ++ bs) = (cutLine sep bs).map fun r => (as ++ r.1, r.2) := by
  have has := cutLine_eq_none.mp hnone
  cases hcut : cutLine sep bs with
  | none =>
      have hbs := cutLine_eq_none.mp hcut
      exact cutLine_eq_none.mpr fun hm => (List.mem_append.mp hm).elim has hbs
  | some lr =>
      obtain ⟨l, r⟩ := lr
      obtain ⟨rfl, hl⟩ := cutLine_eq_some.mp hcut
      exact cutLine_eq_some.mpr ⟨by simp, fun hm => (List.mem_append.mp hm).elim has hl⟩

/-- What is behind the last separator has none. -/
theorem not_mem_splitLines (sep : α) (as : List α) : sep ∉ (splitLines sep as).2 := by
  induction as using lineInduction sep with
  | rest as hnone =>
      rw [splitLines_of_cutLine_none hnone]
      exact cutLine_eq_none.mp hnone
  | line as l r hcut ih =>
      rw [splitLines_of_cutLine hcut]
      exact ih

/-- **Cutting may stop and go on**, with what was behind the last separator. -/
theorem splitLines_append (sep : α) (as bs : List α) :
    splitLines sep (as ++ bs)
      = ((splitLines sep as).1 ++ (splitLines sep ((splitLines sep as).2 ++ bs)).1,
        (splitLines sep ((splitLines sep as).2 ++ bs)).2) := by
  induction as using lineInduction sep with
  | rest as hnone =>
      rw [splitLines_of_cutLine_none hnone]
      rfl
  | line as l r hcut ih =>
      rw [splitLines_of_cutLine hcut, splitLines_of_cutLine (cutLine_append hcut bs), ih]
      rfl

/-- Lines that were put one behind the other are cut apart again. -/
theorem splitLines_join {lines : List (List α)} (h : ∀ l ∈ lines, sep ∉ l) :
    splitLines sep (lines.flatMap fun l => l ++ [sep]) = (lines, []) := by
  induction lines with
  | nil => rfl
  | cons l lines ih =>
      obtain ⟨hl, hlines⟩ := List.forall_mem_cons.mp h
      have hcut : cutLine sep ((l :: lines).flatMap fun l => l ++ [sep])
          = some (l, lines.flatMap fun l => l ++ [sep]) :=
        cutLine_eq_some.mpr ⟨by simp, hl⟩
      rw [splitLines_of_cutLine hcut, ih hlines]

/-! ## Short lines -/

/-- Every line has at most `k` elements, and so has what is behind the last. -/
def ShortLines (sep : α) (k : Nat) (as : List α) : Prop :=
  (∀ l ∈ (splitLines sep as).1, l.length ≤ k) ∧ (splitLines sep as).2.length ≤ k

theorem ShortLines.rest {k : Nat} {as l r : List α} (h : ShortLines sep k as)
    (hcut : cutLine sep as = some (l, r)) : ShortLines sep k r := by
  unfold ShortLines at h
  rw [splitLines_of_cutLine hcut] at h
  exact ⟨fun l' hl' => h.1 l' (List.mem_cons_of_mem _ hl'), h.2⟩

theorem ShortLines.line_le {k : Nat} {as l r : List α} (h : ShortLines sep k as)
    (hcut : cutLine sep as = some (l, r)) : l.length ≤ k := by
  unfold ShortLines at h
  rw [splitLines_of_cutLine hcut] at h
  exact h.1 l (List.mem_cons_self ..)

theorem ShortLines.rest_le {k : Nat} {as : List α} (h : ShortLines sep k as)
    (hnone : cutLine sep as = none) : as.length ≤ k := by
  unfold ShortLines at h
  rw [splitLines_of_cutLine_none hnone] at h
  exact h.2

end KvStore.Lib
