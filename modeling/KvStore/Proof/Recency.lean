import KvStore.Lib.Runs
import KvStore.Store.Caches

/-!
# The policy is exact LRU

The policy is a list it splices, an index into that list and a counter. What it is
for is said about the calls alone: which keys are tracked and with what size, and
when each of them was last used. Here the two are kept side by side. A state is the
policy and the calls that were made of it, and after any calls the list is the
tracked keys in the order of their last use.

The sizes are whatever the caller says, and the counter has 64 bits. So it is the sum
of the sizes as long as that has 64 bits too, and what is left of it otherwise; who is
evicted does not depend on it.
-/

namespace KvStore.LruPolicy

open Lib

/-! ## The calls and what they say -/

/-- A call that was made; `evict` with the victim it returned. -/
inductive Call where
  | onInsert (key : Bytes) (bytes : UInt64)
  | onAccess (key : Bytes)
  | onErase (key : Bytes)
  | evict (victim : Option Bytes)
  deriving DecidableEq, Repr

/-- The size a key was last inserted with, unless it was erased or evicted since. The calls are
listed with the last one first. -/
def tracked (key : Bytes) : List Call → Option UInt64
  | [] => none
  | .onInsert k bytes :: calls => if key = k then some bytes else tracked key calls
  | .onAccess _ :: calls => tracked key calls
  | .onErase k :: calls => if key = k then none else tracked key calls
  | .evict victim :: calls => if victim = some key then none else tracked key calls

/-- Whether a call uses a key. -/
def Call.uses (key : Bytes) : Call → Bool
  | .onInsert k _ => key = k
  | .onAccess k => key = k
  | .onErase _ => false
  | .evict _ => false

/-- When a key was last used: the number of calls up to that one. -/
def lastUse (key : Bytes) : List Call → Nat
  | [] => 0
  | call :: calls => if call.uses key then calls.length + 1 else lastUse key calls

theorem lastUse_le (key : Bytes) (calls : List Call) : lastUse key calls ≤ calls.length := by
  induction calls with
  | nil => exact Nat.le_refl _
  | cons call calls ih =>
      rw [lastUse, List.length_cons]
      split
      · exact Nat.le_refl _
      · omega

/-! ## The policy and its calls -/

/-- A policy, and the calls that were made of it. -/
structure Traced where
  policy : LruPolicy := {}
  /-- The last one first. -/
  calls : List Call := []

/-- The call that comes next. -/
inductive Act where
  | onInsert (key : Bytes) (bytes : UInt64)
  | onAccess (key : Bytes)
  | onErase (key : Bytes)
  | evict
  deriving DecidableEq, Repr

/-- One call. -/
def Traced.step (s : Traced) : Act → Traced
  | .onInsert key bytes =>
      { policy := s.policy.onInsert key bytes.toNat, calls := .onInsert key bytes :: s.calls }
  | .onAccess key => { policy := s.policy.onAccess key, calls := .onAccess key :: s.calls }
  | .onErase key => { policy := s.policy.onErase key, calls := .onErase key :: s.calls }
  | .evict =>
      match s.policy.evict with
      | none => { s with calls := .evict none :: s.calls }
      | some (victim, p) => { policy := p, calls := .evict (some victim) :: s.calls }

/-- A new policy and any calls of it. -/
def system : System Traced Act where
  init s := s = {}
  step s a := some (s.step a)

/-! ## The order of last use -/

/-- A cache has the tracked keys, the one that was used last first. -/
structure InOrder (calls : List Call) (c : Cache Bytes UInt64) : Prop where
  lookup : ∀ key, c.lookup key = tracked key calls
  latest : c.keys.Pairwise fun k k' => lastUse k' calls < lastUse k calls

namespace InOrder

variable {calls : List Call} {c : Cache Bytes UInt64}

theorem empty : InOrder [] ∅ where
  lookup _ := rfl
  latest := List.Pairwise.nil

/-- What does not use the keys does not change their order. -/
theorem latest_cons (h : InOrder calls c) {call : Call} {keys : List Bytes}
    (hsub : keys.Sublist c.keys) (hnot : ∀ k ∈ keys, call.uses k = false) :
    keys.Pairwise fun k k' => lastUse k' (call :: calls) < lastUse k (call :: calls) := by
  refine (h.latest.sublist hsub).imp_of_mem fun hk hk' hlt => ?_
  rw [lastUse, lastUse, hnot _ hk, hnot _ hk']
  exact hlt

/-- The key that was used goes in front of the others. -/
theorem latest_front (h : InOrder calls c) {call : Call} {key : Bytes}
    (huses : ∀ k, call.uses k = decide (k = key)) :
    (key :: c.keys.filter fun k => k ≠ key).Pairwise
      fun k k' => lastUse k' (call :: calls) < lastUse k (call :: calls) := by
  have hnot : ∀ k ∈ c.keys.filter (fun k => k ≠ key), call.uses k = false := by
    intro k hk
    rw [huses, decide_eq_false_iff_not]
    exact of_decide_eq_true (List.mem_filter.mp hk).2
  refine List.pairwise_cons.mpr ⟨fun k hk => ?_, h.latest_cons List.filter_sublist hnot⟩
  have hle := lastUse_le k calls
  have hkey : call.uses key = true := by rw [huses, decide_eq_true rfl]
  rw [lastUse, lastUse, hkey, hnot k hk]
  simp only [Bool.false_eq_true, if_false, if_true]
  omega

theorem onInsert (h : InOrder calls c) (key : Bytes) (bytes : UInt64) :
    InOrder (.onInsert key bytes :: calls) (c.insert key bytes) where
  lookup k := by
    rw [tracked]
    by_cases hk : k = key
    · rw [hk, AList.lookup_insert, if_pos rfl]
    · rw [AList.lookup_insert_ne hk, if_neg hk, h.lookup]
  latest := by
    rw [Cache.keys_insert_filter]
    exact h.latest_front fun _ => rfl

theorem onAccess (h : InOrder calls c) (key : Bytes) :
    InOrder (.onAccess key :: calls) (Cache.touch key c) where
  lookup k := by
    rw [Cache.lookup_touch, h.lookup, tracked]
  latest := by
    unfold Cache.touch
    split
    · -- a use of a key that is not tracked does not show
      rename_i hnone
      refine h.latest_cons (List.Sublist.refl _) fun k hk => ?_
      have hne : k ≠ key := by
        intro heq
        rw [heq] at hk
        exact AList.lookup_eq_none.mp hnone hk
      exact decide_eq_false hne
    · rw [Cache.keys_insert_filter]
      exact h.latest_front fun _ => rfl

theorem onErase (h : InOrder calls c) (key : Bytes) :
    InOrder (.onErase key :: calls) (c.erase key) where
  lookup k := by
    rw [tracked]
    by_cases hk : k = key
    · rw [hk, AList.lookup_erase, if_pos rfl]
    · rw [AList.lookup_erase_ne hk, if_neg hk, h.lookup]
  latest := by
    rw [Cache.keys_erase_filter]
    exact h.latest_cons List.filter_sublist fun _ _ => rfl

theorem evict_some (h : InOrder calls c) (victim : Bytes) :
    InOrder (.evict (some victim) :: calls) (c.erase victim) where
  lookup k := by
    rw [tracked]
    by_cases hk : k = victim
    · rw [hk, AList.lookup_erase, if_pos rfl]
    · rw [AList.lookup_erase_ne hk, if_neg (fun heq => hk (Option.some.inj heq).symm), h.lookup]
  latest := by
    rw [Cache.keys_erase_filter]
    exact h.latest_cons List.filter_sublist fun _ _ => rfl

theorem evict_none (h : InOrder calls c) : InOrder (.evict none :: calls) c where
  lookup k := by rw [h.lookup, tracked, if_neg (by simp)]
  latest := h.latest_cons (List.Sublist.refl _) fun _ _ => rfl

end InOrder

/-! ## After any calls -/

/-- The size of an entry, as the counter counts it. -/
def sizeOf (_ : Bytes) (bytes : UInt64) : Nat := bytes.toNat

/-- The policy lists the keys it was called with in the order of their last use, and counts. -/
structure Exact (s : Traced) (c : Cache Bytes UInt64) : Prop where
  lists : s.policy.Lists sizeOf c
  order : InOrder s.calls c
  bytes : s.policy.bytes = Cache.weight sizeOf c % 2 ^ 64

theorem Lists.evict_empty {V : Type} {w : Bytes → V → Nat} {p : LruPolicy} {c : Cache Bytes V}
    (h : p.Lists w c) (hnil : c.entries = []) : p.evict = none := by
  have hrecency : p.recency = [] := by
    rw [← List.map_eq_nil_iff (f := Prod.snd), h.keys, AList.keys, hnil]
    rfl
  rw [LruPolicy.evict, hrecency]
  rfl

/-- Subtracting a size undoes its addition, whether or not either of them wrapped. -/
theorem Exact.bytes_erase {s : Traced} {c : Cache Bytes UInt64} (h : Exact s c) (key : Bytes) :
    (c.lookup key).elim s.policy.bytes (fun v => sizeSub s.policy.bytes (sizeOf key v))
      = Cache.weight sizeOf (c.erase key) % 2 ^ 64 := by
  cases hv : c.lookup key with
  | none =>
      rw [Cache.erase_of_lookup_none hv]
      exact h.bytes
  | some v =>
      have hw := Cache.weight_erase (w := sizeOf) hv
      have hlt : sizeOf key v < 2 ^ 64 := v.toNat_lt
      show sizeSub s.policy.bytes (sizeOf key v) = _
      rw [h.bytes, sizeSub]
      split <;> omega

theorem Exact.onErase {s : Traced} {c : Cache Bytes UInt64} (h : Exact s c) (key : Bytes)
    {calls : List Call} (horder : InOrder calls (c.erase key)) :
    Exact { policy := s.policy.onErase key, calls := calls } (c.erase key) := by
  refine ⟨h.lists.onErase key, horder, ?_⟩
  show (s.policy.onErase key).bytes = _
  rw [h.lists.onErase_bytes, h.bytes_erase]

theorem Exact.step {s : Traced} {c : Cache Bytes UInt64} (h : Exact s c) (a : Act) :
    ∃ c', Exact (s.step a) c' := by
  cases a with
  | onInsert key bytes =>
      refine ⟨c.insert key bytes, h.lists.insertWith _ key bytes, h.order.onInsert key bytes, ?_⟩
      show (s.policy.insertWith sizeAdd key (sizeOf key bytes)).bytes = _
      rw [h.lists.insertWith_bytes, h.bytes_erase, Cache.weight_insert, sizeAdd]
      omega
  | onAccess key =>
      refine ⟨Cache.touch key c, h.lists.onAccess key, h.order.onAccess key, ?_⟩
      show (s.policy.onAccess key).bytes = _
      rw [onAccess_bytes, h.bytes, Cache.weight_touch]
  | onErase key => exact ⟨_, h.onErase key (h.order.onErase key)⟩
  | evict =>
      unfold Traced.step
      dsimp only
      rcases List.eq_nil_or_concat c.entries with hnil | ⟨front, ⟨key, bytes⟩, hback⟩
      · rw [h.lists.evict_empty hnil]
        exact ⟨c, h.lists, h.order.evict_none, h.bytes⟩
      · rw [h.lists.evict (hback.trans List.concat_eq_append)]
        exact ⟨_, h.onErase key (h.order.evict_some key)⟩

theorem exact_reachable {s : Traced} (h : system.Reachable s) : ∃ c, Exact s c := by
  refine h.invariant (I := fun s => ∃ c, Exact s c) ?_ ?_
  · intro s hs
    rw [show s = {} from hs]
    exact ⟨∅, lists_empty, InOrder.empty, rfl⟩
  · rintro s a s' ⟨c, hs⟩ _ hstep
    cases hstep
    exact hs.step a

/-! ## What an exact policy does -/

/-- The sum of the sizes that the tracked keys were last inserted with. -/
def Traced.total (s : Traced) : Nat :=
  ((s.policy.recency.map Prod.snd).map fun key => (tracked key s.calls).elim 0 UInt64.toNat).sum

namespace Exact

variable {s : Traced} {c : Cache Bytes UInt64}

/-- The list and the index have the same keys, those that are tracked. -/
theorem mem_iff (h : Exact s c) (key : Bytes) :
    (key ∈ s.policy.recency.map Prod.snd ↔ key ∈ s.policy.index)
      ∧ (s.policy.index.lookup key).map Entry.bytes = (tracked key s.calls).map UInt64.toNat := by
  rw [h.lists.keys, h.lists.mem_index, ← h.order.lookup]
  refine ⟨AList.mem_keys.symm, ?_⟩
  cases hv : c.lookup key with
  | none => rw [h.lists.lookup_none hv]; rfl
  | some bytes =>
      obtain ⟨node, hidx, _⟩ := h.lists.lookup_some hv
      rw [hidx]
      rfl

theorem total_eq (h : Exact s c) : s.total = Cache.weight sizeOf c := by
  rw [Traced.total, h.lists.keys, AList.keys, List.keys, List.map_map]
  refine congrArg List.sum (List.map_congr_left fun e he => ?_)
  have hv : c.lookup e.1 = some e.2 := AList.mem_lookup_iff.mpr he
  rw [Function.comp_apply, ← h.order.lookup, hv]
  rfl

/-- Every size is a part of the sum. -/
theorem bytes_le (h : Exact s c) {key : Bytes} {entry : Entry}
    (hentry : s.policy.index.lookup key = some entry) : entry.bytes ≤ s.total := by
  obtain ⟨_, bytes, hv, hbytes⟩ := (h.lists.index key entry).mp hentry
  have hw := Cache.weight_erase (w := sizeOf) hv
  rw [h.total_eq, hbytes]
  omega

/-- Nothing is evicted exactly when nothing is tracked. -/
theorem evict_eq_none (h : Exact s c) :
    s.policy.evict = none ↔ ∀ key, tracked key s.calls = none := by
  rcases List.eq_nil_or_concat c.entries with hnil | ⟨front, ⟨key, bytes⟩, hback⟩
  · refine iff_of_true (h.lists.evict_empty hnil) fun key => ?_
    rw [← h.order.lookup]
    refine AList.lookup_eq_none.mpr fun hmem => ?_
    rw [AList.mem_keys, AList.keys, hnil] at hmem
    exact absurd hmem (by simp)
  · rw [List.concat_eq_append] at hback
    rw [h.lists.evict hback]
    refine iff_of_false (by simp) fun hnone => ?_
    have hv : c.lookup key = some bytes := AList.mem_lookup_iff.mpr (by rw [hback]; simp)
    rw [h.order.lookup, hnone] at hv
    exact absurd hv (by simp)

/-- What is evicted was tracked, and every other tracked key was used later. -/
theorem evict_oldest (h : Exact s c) {victim : Bytes} {p : LruPolicy}
    (hevict : s.policy.evict = some (victim, p)) :
    (tracked victim s.calls).isSome = true
      ∧ ∀ key, (tracked key s.calls).isSome = true → key ≠ victim →
        lastUse victim s.calls < lastUse key s.calls := by
  rcases List.eq_nil_or_concat c.entries with hnil | ⟨front, ⟨key, bytes⟩, hback⟩
  · rw [h.lists.evict_empty hnil] at hevict
    exact absurd hevict (by simp)
  · rw [List.concat_eq_append] at hback
    rw [h.lists.evict hback] at hevict
    cases hevict
    have hkeys : c.keys = front.keys ++ [victim] := by
      rw [AList.keys, hback]
      exact List.map_append
    have hmem : ∀ k, (tracked k s.calls).isSome = true ↔ k ∈ c.keys := by
      intro k
      rw [← h.order.lookup, AList.lookup_isSome, AList.mem_keys]
    refine ⟨(hmem victim).mpr (by rw [hkeys]; simp), fun k hk hne => ?_⟩
    have hfront : k ∈ front.keys := by
      have := (hmem k).mp hk
      rw [hkeys, List.mem_append, List.mem_singleton] at this
      exact this.resolve_right hne
    -- the keys stand in the order of their last use, the latest first
    have hlatest := h.order.latest
    rw [hkeys, List.pairwise_append] at hlatest
    exact hlatest.2.2 k hfront victim (by simp)

end Exact

/--
**The policy is exact LRU, whatever was called.**

The list has every key of the index once, and each entry of the index names the node
of its own key. The counter is the sum of the sizes the tracked keys were last
inserted with, modulo what a `std::size_t` can hold; so it is that sum, and no
subtraction goes below zero, whenever the sum fits. A call of `evict` finds nothing
exactly when nothing is tracked, and otherwise the tracked key that was used least
recently.
-/
theorem exact_lru (s : Traced) (hreach : system.Reachable s) :
    (s.policy.recency.map Prod.snd).Nodup
      ∧ (s.policy.recency.map Prod.fst).Nodup
      ∧ (∀ key, key ∈ s.policy.recency.map Prod.snd ↔ key ∈ s.policy.index)
      ∧ (∀ key entry, s.policy.index.lookup key = some entry →
          (entry.node, key) ∈ s.policy.recency)
      ∧ (∀ key, (s.policy.index.lookup key).map Entry.bytes
          = (tracked key s.calls).map UInt64.toNat)
      ∧ s.policy.bytes = s.total % 2 ^ 64
      ∧ (s.total < 2 ^ 64 → s.policy.bytes = s.total
          ∧ ∀ key entry, s.policy.index.lookup key = some entry → entry.bytes ≤ s.policy.bytes)
      ∧ (s.policy.evict = none ↔ ∀ key, tracked key s.calls = none)
      ∧ ∀ victim p, s.policy.evict = some (victim, p) →
          (tracked victim s.calls).isSome = true
            ∧ ∀ key, (tracked key s.calls).isSome = true → key ≠ victim →
              lastUse victim s.calls < lastUse key s.calls := by
  obtain ⟨c, h⟩ := exact_reachable hreach
  have hbytes : s.policy.bytes = s.total % 2 ^ 64 := by rw [h.total_eq]; exact h.bytes
  refine ⟨h.lists.nodup_keys, h.lists.nodes, fun key => (h.mem_iff key).1,
    fun key entry hentry => ((h.lists.index key entry).mp hentry).1,
    fun key => (h.mem_iff key).2, hbytes, fun hlt => ?_, h.evict_eq_none,
    fun _ _ hevict => h.evict_oldest hevict⟩
  rw [hbytes, Nat.mod_eq_of_lt hlt]
  exact ⟨rfl, fun key entry hentry => h.bytes_le hentry⟩

/-- Two keys, the first of them used again: the second goes, although it came later. -/
theorem exact_lru_touched :
    ∃ s, system.Reachable s ∧ s.policy.evict.map Prod.fst = some [98]
      ∧ lastUse [98] s.calls < lastUse [97] s.calls := by
  obtain ⟨s, hreach, hevict, htracked⟩ := System.exists_reachableBy
    (p := fun s => s.policy.evict.map Prod.fst = some [98] ∧ tracked [97] s.calls = some 5)
    (show system.Reachable {} from .init rfl)
    [.onInsert [97] 5, .onInsert [98] 6, .onAccess [97], .onErase [99]]
    (by decide) (by decide +kernel)
  obtain ⟨⟨victim, p⟩, hsome, hvictim⟩ := Option.map_eq_some_iff.mp hevict
  cases hvictim
  obtain ⟨-, -, -, -, -, -, -, -, holdest⟩ := exact_lru s hreach
  have hlater := (holdest _ _ hsome).2 [97] (by rw [htracked]; rfl)
  exact ⟨s, hreach, hevict, hlater (by decide)⟩

/-- Two sizes of half the range: the counter is back at zero, and is less than either. -/
theorem not_exact_lru_wrapped :
    ∃ s, system.Reachable s ∧ tracked [97] s.calls = some 9223372036854775808
      ∧ tracked [98] s.calls = some 9223372036854775808 ∧ s.total = 2 ^ 64 ∧ s.policy.bytes = 0
      ∧ (s.policy.index.lookup [97]).map Entry.bytes = some (2 ^ 63) :=
  System.exists_reachableBy (show system.Reachable {} from .init rfl)
    [.onInsert [97] 9223372036854775808, .onInsert [98] 9223372036854775808]
    (by decide) (by decide +kernel)

end KvStore.LruPolicy
