import Mathlib.Data.List.Basic
import Mathlib.Data.List.TakeWhile

/-!
# Words between separators

A text is a run of separators, a word, and what comes behind the word, which is nothing
or begins with a separator. It can be taken apart in this way in at most one way, and
`takeWhile` and `dropWhile` do it.
-/

namespace KvStore.Lib

variable {α : Type} (sep : α)

/-- Separators only. -/
def Blank (s : List α) : Prop := ∀ b ∈ s, b = sep

/-- Something that has no separator in it. -/
def Word (s : List α) : Prop := s ≠ [] ∧ sep ∉ s

/-- What may stand behind a word. -/
def Behind (s : List α) : Prop := s = [] ∨ s.head? = some sep

/-- What separators may stand in front of, and belong to the front. -/
def Text (s : List α) : Prop := s ≠ [] ∧ s.head? ≠ some sep

variable {sep}

theorem Word.text {s : List α} (h : Word sep s) (t : List α) : Text sep (s ++ t) := by
  obtain ⟨hne, hsep⟩ := h
  cases s with
  | nil => exact absurd rfl hne
  | cons b s => exact ⟨by simp, fun hb => hsep (Option.some.inj hb ▸ List.mem_cons_self ..)⟩

/-- A run of separators has a separator in front. -/
theorem Blank.behind {s t : List α} (h : Blank sep s) (hne : s ≠ []) : Behind sep (s ++ t) := by
  cases s with
  | nil => exact absurd rfl hne
  | cons b s => exact Or.inr (congrArg some (h b (List.mem_cons_self ..)))

variable [DecidableEq α]

instance (s : List α) : Decidable (Blank sep s) := inferInstanceAs (Decidable (∀ b ∈ s, b = sep))
instance (s : List α) : Decidable (Word sep s) := inferInstanceAs (Decidable (_ ∧ _))
instance (s : List α) : Decidable (Text sep s) := inferInstanceAs (Decidable (_ ∧ _))

/-- Skipping separators stops at the text. -/
theorem dropWhile_blank {s t : List α} (hs : Blank sep s) (ht : Text sep t) :
    (s ++ t).dropWhile (· = sep) = t := by
  rw [List.dropWhile_append_of_pos fun b hb => decide_eq_true (hs b hb)]
  obtain ⟨hne, hhead⟩ := ht
  cases t with
  | nil => exact absurd rfl hne
  | cons b t =>
      have hb : b ≠ sep := fun heq => hhead (congrArg some heq)
      simp [hb]

/-- Every list begins with separators, and is nothing else or goes on with a text. -/
theorem blank_or_text (sep : α) (s : List α) :
    Blank sep s ∨ ∃ front t, s = front ++ t ∧ Blank sep front ∧ Text sep t := by
  induction s with
  | nil => exact Or.inl (by simp [Blank])
  | cons b s ih =>
      by_cases hb : b = sep
      · subst hb
        rcases ih with hs | ⟨front, t, rfl, hfront, ht⟩
        · exact Or.inl (List.forall_mem_cons.mpr ⟨rfl, hs⟩)
        · exact Or.inr ⟨b :: front, t, rfl, List.forall_mem_cons.mpr ⟨rfl, hfront⟩, ht⟩
      · exact Or.inr ⟨[], b :: s, rfl, by simp [Blank], by simp, fun h => hb (Option.some.inj h)⟩

theorem dropWhile_blank_nil {s : List α} (hs : Blank sep s) : s.dropWhile (· = sep) = [] :=
  List.dropWhile_eq_nil_iff.mpr fun b hb => decide_eq_true (hs b hb)

/-- A word is taken off whole. -/
theorem span_word {w r : List α} (hw : sep ∉ w) (hr : Behind sep r) :
    (w ++ r).takeWhile (· ≠ sep) = w ∧ (w ++ r).dropWhile (· ≠ sep) = r := by
  have hkeep : ∀ b ∈ w, decide (b ≠ sep) = true := fun b hb =>
    decide_eq_true fun heq => hw (heq ▸ hb)
  rw [List.takeWhile_append_of_pos hkeep, List.dropWhile_append_of_pos hkeep]
  cases r with
  | nil => simp
  | cons b r =>
      obtain rfl : b = sep := Option.some.inj (hr.resolve_left (by simp))
      simp

/-- Every text begins with a word. -/
theorem Text.word {t : List α} (ht : Text sep t) :
    ∃ w r, t = w ++ r ∧ Word sep w ∧ Behind sep r := by
  refine ⟨t.takeWhile (· ≠ sep), t.dropWhile (· ≠ sep), List.takeWhile_append_dropWhile.symm,
    ⟨?_, ?_⟩, ?_⟩
  · obtain ⟨hne, hhead⟩ := ht
    cases t with
    | nil => exact absurd rfl hne
    | cons b t =>
        have hb : b ≠ sep := fun heq => hhead (congrArg some heq)
        simp [hb]
  · intro hsep
    have hne := List.mem_takeWhile_imp hsep
    exact absurd hne (by simp)
  · cases hd : t.dropWhile (· ≠ sep) with
    | nil => exact Or.inl rfl
    | cons b r =>
        have hb := List.head?_dropWhile_not (p := (· ≠ sep)) t
        rw [hd] at hb
        exact Or.inr (congrArg some (by simpa using hb))

end KvStore.Lib
