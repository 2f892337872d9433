import Mathlib.Algebra.BigOperators.Group.List.Basic
import Mathlib.Algebra.GroupWithZero.Nat
import Mathlib.Data.List.AList

/-!
# Caches with a budget

A cache is its entries, the most recently used first, and no key twice. That is an
`AList`, whose `insert` puts the entry at the front wherever it was before.

Every entry weighs something, and a cache that weighs more than its budget gives up
entries from the back until it does not, or has one entry left.
-/

namespace KvStore.Lib

/-- Keys with their values, the most recently used first. -/
abbrev Cache (K V : Type) := AList fun _ : K => V

namespace Cache

variable {K V : Type}

/-! ## What fits into a budget -/

section Fitting

variable (w : K → V → Nat)

/-- What the entries weigh together. -/
def weightOf (es : List (Σ _ : K, V)) : Nat := (es.map fun e => w e.1 e.2).sum

@[simp] theorem weightOf_nil : weightOf w [] = 0 := rfl

@[simp] theorem weightOf_cons (e : Σ _ : K, V) (es : List (Σ _ : K, V)) :
    weightOf w (e :: es) = w e.1 e.2 + weightOf w es := List.sum_cons

theorem weightOf_perm {es es' : List (Σ _ : K, V)} (h : es.Perm es') :
    weightOf w es = weightOf w es' := (h.map _).sum_eq

theorem weightOf_sublist {es es' : List (Σ _ : K, V)} (h : es.Sublist es') :
    weightOf w es ≤ weightOf w es' := by
  induction h with
  | slnil => exact Nat.le_refl _
  | cons e _ ih => rw [weightOf_cons]; omega
  | cons_cons e _ ih => rw [weightOf_cons, weightOf_cons]; omega

/-- As many entries from the front as fit. -/
def fitting : Nat → List (Σ _ : K, V) → List (Σ _ : K, V)
  | _, [] => []
  | b, e :: es => if w e.1 e.2 ≤ b then e :: fitting (b - w e.1 e.2) es else []

/-- The same, but the entry at the front stays in any case. -/
def trimmed (b : Nat) : List (Σ _ : K, V) → List (Σ _ : K, V)
  | [] => []
  | e :: es => e :: if w e.1 e.2 ≤ b then fitting w (b - w e.1 e.2) es else []

theorem fitting_isFront (b : Nat) (es : List (Σ _ : K, V)) : fitting w b es <+: es := by
  induction es generalizing b with
  | nil => exact List.prefix_rfl
  | cons e es ih =>
      rw [fitting]
      split
      · exact (List.prefix_cons_inj e).mpr (ih _)
      · exact List.nil_prefix

theorem weightOf_fitting (b : Nat) (es : List (Σ _ : K, V)) : weightOf w (fitting w b es) ≤ b := by
  induction es generalizing b with
  | nil => exact Nat.zero_le _
  | cons e es ih =>
      rw [fitting]
      split
      · have := ih (b - w e.1 e.2)
        rw [weightOf_cons]
        omega
      · exact Nat.zero_le _

theorem fitting_of_le {b : Nat} {es : List (Σ _ : K, V)} (h : weightOf w es ≤ b) :
    fitting w b es = es := by
  induction es generalizing b with
  | nil => rfl
  | cons e es ih =>
      rw [weightOf_cons] at h
      rw [fitting, if_pos (by omega), ih (by omega)]

/-- When not everything fits, the last entry may as well be missing. -/
theorem fitting_concat {b : Nat} {es : List (Σ _ : K, V)} {e : Σ _ : K, V}
    (h : b < weightOf w (es ++ [e])) : fitting w b (es ++ [e]) = fitting w b es := by
  induction es generalizing b with
  | nil =>
      rw [List.nil_append, weightOf_cons, weightOf_nil] at h
      exact if_neg (by omega)
  | cons e' es ih =>
      rw [List.cons_append, weightOf_cons] at h
      rw [List.cons_append, fitting, fitting]
      by_cases hfit : w e'.1 e'.2 ≤ b
      · rw [if_pos hfit, if_pos hfit, ih (by omega)]
      · rw [if_neg hfit, if_neg hfit]

theorem trimmed_isFront (b : Nat) (es : List (Σ _ : K, V)) : trimmed w b es <+: es := by
  cases es with
  | nil => exact List.prefix_rfl
  | cons e es =>
      refine (List.prefix_cons_inj e).mpr ?_
      split
      · exact fitting_isFront w _ es
      · exact List.nil_prefix

theorem weightOf_trimmed (b : Nat) (es : List (Σ _ : K, V)) :
    weightOf w (trimmed w b es) ≤ b ∨ (trimmed w b es).length = 1 := by
  cases es with
  | nil => exact .inl (Nat.zero_le _)
  | cons e es =>
      rw [trimmed]
      split
      · have := weightOf_fitting w (b - w e.1 e.2) es
        rw [weightOf_cons]
        omega
      · exact .inr rfl

theorem trimmed_of_le {b : Nat} {es : List (Σ _ : K, V)} (h : weightOf w es ≤ b ∨ es.length ≤ 1) :
    trimmed w b es = es := by
  cases es with
  | nil => rfl
  | cons e es =>
      rw [trimmed]
      rcases h with h | h
      · rw [weightOf_cons] at h
        rw [if_pos (by omega), fitting_of_le w (by omega)]
      · have hnil : es = [] := List.eq_nil_of_length_eq_zero (by rw [List.length_cons] at h; omega)
        subst hnil
        split
        · rfl
        · rfl

theorem trimmed_concat {b : Nat} {es : List (Σ _ : K, V)} {e : Σ _ : K, V} (hne : es ≠ [])
    (h : b < weightOf w (es ++ [e])) : trimmed w b (es ++ [e]) = trimmed w b es := by
  cases es with
  | nil => exact absurd rfl hne
  | cons e' es =>
      rw [List.cons_append, weightOf_cons] at h
      rw [List.cons_append, trimmed, trimmed]
      by_cases hfit : w e'.1 e'.2 ≤ b
      · rw [if_pos hfit, if_pos hfit, fitting_concat w (by omega)]
      · rw [if_neg hfit, if_neg hfit]

end Fitting

/-! ## The operations of a cache -/

theorem nodupKeys_of_front {es es' : List (Σ _ : K, V)} (h : es <+: es') (hes : es'.NodupKeys) :
    es.NodupKeys := (h.sublist.map Sigma.fst).nodup hes

/-- Entries go from the back, until what is left is within the budget or is one entry. -/
def trim (w : K → V → Nat) (b : Nat) (c : Cache K V) : Cache K V :=
  ⟨trimmed w b c.entries, nodupKeys_of_front (trimmed_isFront w b _) c.nodupKeys⟩

/-- What a cache weighs. -/
def weight (w : K → V → Nat) (c : Cache K V) : Nat := weightOf w c.entries

theorem weight_trim (w : K → V → Nat) (b : Nat) (c : Cache K V) :
    weight w (trim w b c) ≤ b ∨ (trim w b c).entries.length = 1 := weightOf_trimmed w b c.entries

theorem trim_of_le {w : K → V → Nat} {b : Nat} {c : Cache K V}
    (h : weight w c ≤ b ∨ c.entries.length ≤ 1) : trim w b c = c :=
  AList.ext (trimmed_of_le w h)

/-- The entries of some of the keys, in the same order. -/
def keep (p : K → Bool) (c : Cache K V) : Cache K V :=
  ⟨c.entries.filter fun e => p e.1, c.nodupKeys.sublist List.filter_sublist⟩

theorem filter_of_sublist {p : K → Bool} {es es' : List (Σ _ : K, V)} (h : es'.Sublist es)
    (hnodup : es.NodupKeys) (hkeys : ∀ k ∈ es.keys, p k = true ↔ k ∈ es'.keys) :
    es.filter (fun e => p e.1) = es' := by
  induction h with
  | slnil => rfl
  | @cons es' es e hsub ih =>
      rw [List.nodupKeys_cons] at hnodup
      -- the entry is missing in the sublist, and no other has its key
      have hnot : ¬ p e.1 = true := fun hp =>
        hnodup.1 ((hsub.map Sigma.fst).subset ((hkeys e.1 (by simp)).mp hp))
      rw [List.filter_cons_of_neg (p := fun e : Σ _ : K, V => p e.1) hnot]
      exact ih hnodup.2 fun k hk => hkeys k (List.mem_cons_of_mem _ hk)
  | @cons_cons es' es e hsub ih =>
      rw [List.nodupKeys_cons] at hnodup
      rw [List.filter_cons_of_pos (p := fun e : Σ _ : K, V => p e.1)
        ((hkeys e.1 (by simp)).mpr (by simp))]
      refine congrArg (e :: ·) (ih hnodup.2 fun k hk => ?_)
      have hne : k ≠ e.1 := fun heq => hnodup.1 (heq ▸ hk)
      rw [hkeys k (List.mem_cons_of_mem _ hk), List.keys_cons, List.mem_cons]
      exact or_iff_right hne

/-- Entries in the same order with the same keys are the same entries. -/
theorem keep_of_sublist {p : K → Bool} {c c' : Cache K V} (h : c'.entries.Sublist c.entries)
    (hkeys : ∀ k ∈ c, p k = true ↔ k ∈ c') : keep p c = c' :=
  AList.ext (filter_of_sublist h c.nodupKeys hkeys)

variable [DecidableEq K]

/-- The entry of a key, if it has one, goes to the front. -/
def touch (k : K) (c : Cache K V) : Cache K V :=
  match c.lookup k with
  | none => c
  | some v => c.insert k v

@[simp] theorem lookup_touch (k k' : K) (c : Cache K V) : (touch k c).lookup k' = c.lookup k' := by
  unfold touch
  split
  · rfl
  · rename_i v hv
    by_cases hk : k' = k
    · subst hk
      rw [AList.lookup_insert, hv]
    · rw [AList.lookup_insert_ne hk]

theorem dedupKeys_of_nodupKeys {es : List (Σ _ : K, V)} (h : es.NodupKeys) : es.dedupKeys = es := by
  induction es with
  | nil => rfl
  | cons e es ih =>
      rw [List.nodupKeys_cons] at h
      rw [List.dedupKeys_cons, ih h.2, List.kinsert, List.kerase_of_notMem_keys h.1]

@[simp] theorem toAList_entries (c : Cache K V) : c.entries.toAList = c :=
  AList.ext ((AList.entries_toAList _).trans (dedupKeys_of_nodupKeys c.nodupKeys))

/-- The entry of a key. -/
def entryAt (c : Cache K V) (k : K) : Option (Σ _ : K, V) := (c.lookup k).map fun v => ⟨k, v⟩

theorem filterMap_entryAt (c : Cache K V) : c.keys.filterMap (entryAt c) = c.entries := by
  rw [AList.keys, List.keys, List.filterMap_map]
  refine (List.filterMap_congr fun e he => ?_).trans List.filterMap_some
  have hv : c.lookup e.1 = some e.2 := AList.mem_lookup_iff.mpr he
  rw [Function.comp_apply, entryAt, hv]
  rfl

theorem keys_erase_filter (k : K) (c : Cache K V) :
    (c.erase k).keys = c.keys.filter fun k' => k' ≠ k := by
  rw [AList.keys_erase, c.keys_nodup.erase_eq_filter]
  refine List.filter_congr fun k' _ => ?_
  simp [bne, beq_eq_decide]

theorem keys_insert_filter (k : K) (v : V) (c : Cache K V) :
    (c.insert k v).keys = k :: c.keys.filter fun k' => k' ≠ k := by
  rw [AList.keys_insert, ← keys_erase_filter, AList.keys_erase]

theorem entries_erase_perm {k : K} {v : V} {c : Cache K V} (h : c.lookup k = some v) :
    c.entries.Perm (⟨k, v⟩ :: (c.erase k).entries) := by
  have hmem : k ∈ c.entries.keys := AList.mem_keys.mp (AList.lookup_isSome.mp (by rw [h]; rfl))
  obtain ⟨v', front, back, _, hsplit, herase⟩ := List.exists_of_kerase hmem
  have hv : v' = v := by
    have hin : (⟨k, v'⟩ : Σ _ : K, V) ∈ c.entries := by rw [hsplit]; simp
    have hv' : c.lookup k = some v' := AList.mem_lookup_iff.mpr hin
    exact Option.some.inj (hv'.symm.trans h)
  rw [show (c.erase k).entries = front ++ back from herase, hsplit, hv]
  exact List.perm_middle

/-! ### What a cache weighs -/

section Weight

variable {w : K → V → Nat} {b : Nat} {c : Cache K V}

theorem weight_insert (k : K) (v : V) :
    weight w (c.insert k v) = w k v + weight w (c.erase k) := weightOf_cons w _ _

theorem weight_erase {k : K} {v : V} (h : c.lookup k = some v) :
    weight w c = w k v + weight w (c.erase k) :=
  (weightOf_perm w (entries_erase_perm h)).trans (weightOf_cons w _ _)

/-- Moving an entry to the front changes no weight. -/
theorem weight_touch (k : K) : weight w (touch k c) = weight w c := by
  unfold touch
  split
  · rfl
  · rename_i v hv
    rw [weight_insert, ← weight_erase hv]

theorem erase_of_lookup_none {k : K} (h : c.lookup k = none) : c.erase k = c :=
  AList.ext (List.kerase_of_notMem_keys (AList.lookup_eq_none.mp h))

theorem lookup_trim {k : K} {v : V} (h : (trim w b c).lookup k = some v) : c.lookup k = some v :=
  AList.mem_lookup_iff.mpr ((trimmed_isFront w b _).subset (AList.mem_lookup_iff.mp h))

/-! ### The loop -/

theorem entries_erase_back {front : List (Σ _ : K, V)} {k : K} {v : V}
    (h : c.entries = front ++ [⟨k, v⟩]) : (c.erase k).entries = front := by
  have hnot : k ∉ front.keys := by
    have hnodup := c.nodupKeys
    rw [h, List.NodupKeys, List.keys, List.map_append] at hnodup
    exact fun hk => (List.nodup_append.mp hnodup).2.2 k hk k (by simp) rfl
  show List.kerase k c.entries = front
  have hlast : List.kerase k [(⟨k, v⟩ : Σ _ : K, V)] = [] := List.kerase_cons_eq rfl
  rw [h, List.kerase_append_right hnot, hlast, List.append_nil]

/-- One round of the loop: the entry at the back goes. -/
theorem trim_erase_back {front : List (Σ _ : K, V)} {k : K} {v : V}
    (h : c.entries = front ++ [⟨k, v⟩]) (hne : front ≠ []) (hover : b < weight w c) :
    trim w b c = trim w b (c.erase k) := by
  refine AList.ext ?_
  show trimmed w b c.entries = trimmed w b (c.erase k).entries
  rw [weight, h] at hover
  rw [entries_erase_back h, h, trimmed_concat w hne hover]

end Weight

end Cache

end KvStore.Lib
