import KvStore.Lib.Runs
import KvStore.Lib.Sums
import KvStore.Store.LockModes
import Mathlib.Algebra.Order.BigOperators.Group.List

/-!
# The memory budget is an invariant

With a budget, a shard keeps its entries in the map and their sizes in the policy, and
every call updates the two side by side. After any calls they agree: the same keys, the
sum of the sizes, and no more than the shard's share of the budget, a single entry
apart.

The keys that the policy has removed are listed beside the map. They are those that a
call wrote or left in place and that were gone when it returned.
-/

namespace KvStore

open Lib

/-! ## The loop terminates -/

theorem LruPolicy.evict_recency {p p' : LruPolicy} {victim : Bytes}
    (h : p.evict = some (victim, p')) : p'.recency = p.recency.dropLast := by
  unfold LruPolicy.evict at h
  split at h
  · exact absurd h (by simp)
  · dsimp only at h
    split at h
    · cases h
      rfl
    · cases h
      rfl

/-- **Every round takes a node off the list**, so further rounds than it has nodes are none. -/
theorem Shard.evictLoop_fuel (budget fuel : Nat) (map : AList fun _ : Bytes => Bytes)
    (policy : LruPolicy) (evictions : Nat) (h : policy.recency.length ≤ fuel) :
    evictLoop budget fuel map policy evictions
      = evictLoop budget policy.recency.length map policy evictions := by
  induction fuel generalizing map policy evictions with
  | zero => rw [Nat.le_zero.mp h]
  | succ fuel ih =>
      cases hlen : policy.recency.length with
      | zero =>
          have hnone : policy.evict = none := by
            rw [LruPolicy.evict, List.length_eq_zero_iff.mp hlen]
            rfl
          rw [evictLoop, evictLoop, hnone]
          split
          · rfl
          · rfl
      | succ n =>
          rw [evictLoop, evictLoop]
          split
          · split
            · rfl
            · rename_i victim policy' hevict
              -- one node less, so one round less is enough
              have hn : policy'.recency.length = n := by
                rw [LruPolicy.evict_recency hevict, List.length_dropLast, hlen]
                rfl
              rw [ih _ _ _ (by omega), hn]
          · rfl

/-! ## One shard -/

/-- A cache weighs what the entries of its shard add up to. -/
theorem weight_eq_sum {evicting : Bool} {s : Shard evicting} {c : Cache Bytes Bytes}
    (h : s.Holds c) :
    Cache.weight entryBytes c = (s.map.entries.map fun e => entryBytes e.1 e.2).sum :=
  (Cache.weightOf_perm entryBytes h.perm).symm

namespace Budget

variable {cfg : MapConfig}

/-- The two structures of a shard agree, and the shard is within its share. -/
structure PolicyMatchesMap (s : Shard cfg.evictionEnabled) (policy : LruPolicy) : Prop where
  recency : ∀ key, key ∈ policy.recency.map Prod.snd ↔ key ∈ s.map
  index : ∀ key, key ∈ policy.index ↔ key ∈ s.map
  bytes : policy.bytes = (s.map.entries.map fun e => entryBytes e.1 e.2).sum
  within : policy.bytes ≤ cfg.shardBudgetBytes ∨ s.map.entries.length = 1

theorem policyMatchesMap_of_holds (hon : 0 < cfg.maxMemoryBytes) {s : Shard cfg.evictionEnabled}
    {c : Cache Bytes Bytes} (h : s.Holds c) (hc : Caches.InBudget cfg c) :
    ∃ policy, s.policy = some policy ∧ PolicyMatchesMap s policy := by
  have henabled : cfg.evictionEnabled = true := decide_eq_true hon
  obtain ⟨policy, hpolicy⟩ := Option.isSome_iff_exists.mp (s.wf.trans henabled)
  have htracks := h.tracked policy hpolicy
  have hmem : ∀ key, key ∈ c ↔ key ∈ s.map := by
    intro key
    rw [← AList.lookup_isSome, ← AList.lookup_isSome, h.lookup]
  refine ⟨policy, hpolicy, fun key => ?_, fun key => ?_, ?_, ?_⟩
  · rw [htracks.keys, ← AList.mem_keys]
    exact hmem key
  · rw [htracks.mem_index]
    exact hmem key
  · rw [htracks.bytes, weight_eq_sum h]
  · rw [htracks.bytes, h.perm.length_eq]
    rcases hc henabled with hw | hl
    · exact .inl hw
    · by_cases hone : c.entries.length = 1
      · exact .inr hone
      · -- an empty shard weighs nothing
        have hnil : c.entries = [] := List.length_eq_zero_iff.mp (by omega)
        refine .inl ?_
        rw [Cache.weight, hnil]
        exact Nat.zero_le _

/-! ## The whole map -/

theorem cachesInBudget_run {m : ShardedMap cfg} (h : CachesInBudget m) (call : MapCall) :
    CachesInBudget (call.run m).1 := by
  obtain ⟨cs, hholds, hbounded⟩ := h
  cases call with
  | get key => exact ⟨_, (hholds.get key).1, hbounded.get key⟩
  | set key value => exact ⟨_, hholds.set key value, hbounded.set key value⟩
  | del key => exact ⟨_, hholds.del key, hbounded.del key⟩
  | size => exact ⟨cs, hholds, hbounded⟩
  | getMany keys => exact ⟨_, hholds.getMany keys, hbounded.getMany keys⟩
  | snapshot => exact ⟨cs, hholds, hbounded⟩
  | applyAtomically mutations =>
      exact ⟨_, hholds.applyAtomically mutations, hbounded.applyAtomically mutations⟩
  | clear => exact ⟨_, hholds.clear, Caches.bounded_empty⟩

theorem policyMatchesMap_of_cachesInBudget (hon : 0 < cfg.maxMemoryBytes) {m : ShardedMap cfg}
    (h : CachesInBudget m) (i : Fin cfg.shards) :
    ∃ policy, (m.shards i).policy = some policy ∧ PolicyMatchesMap (m.shards i) policy := by
  obtain ⟨cs, hholds, hbounded⟩ := h
  exact policyMatchesMap_of_holds hon (hholds.shards i) (hbounded i)

/-- If every entry fits, the shards fit, and their shares add up to no more than the budget. -/
theorem bytesUsed_le (hon : 0 < cfg.maxMemoryBytes) {m : ShardedMap cfg} (h : CachesInBudget m)
    (hfits : ∀ i, ∀ e ∈ (m.shards i).map.entries, entryBytes e.1 e.2 ≤ cfg.shardBudgetBytes) :
    m.bytesUsed ≤ cfg.maxMemoryBytes := by
  have hshare : ∀ i, ((m.shards i).policy.map LruPolicy.bytes).getD 0
      ≤ cfg.maxMemoryBytes / cfg.shards := by
    intro i
    obtain ⟨policy, hpolicy, haccounted⟩ := policyMatchesMap_of_cachesInBudget hon h i
    rw [hpolicy, Option.map_some, Option.getD_some]
    have hle : policy.bytes ≤ cfg.shardBudgetBytes := by
      rcases haccounted.within with hle | hone
      · exact hle
      · obtain ⟨e, he⟩ := List.length_eq_one_iff.mp hone
        rw [haccounted.bytes, he, List.map_singleton, List.sum_singleton]
        exact hfits i e (by rw [he]; exact List.mem_singleton_self e)
    by_cases hzero : cfg.maxMemoryBytes / cfg.shards = 0
    · -- a share of one byte, and no entry is as small as that
      rw [MapConfig.shardBudgetBytes, if_pos hzero] at hle
      cases hentries : (m.shards i).map.entries with
      | nil =>
          rw [haccounted.bytes, hentries]
          exact Nat.zero_le _
      | cons e es =>
          have hsmall := hfits i e (by rw [hentries]; exact List.mem_cons_self ..)
          rw [MapConfig.shardBudgetBytes, if_pos hzero, entryBytes, Shard.kEntryOverheadBytes]
            at hsmall
          omega
    · rw [MapConfig.shardBudgetBytes, if_neg hzero] at hle
      exact hle
  have hsum := List.sum_le_card_nsmul
    ((List.finRange cfg.shards).map fun i => ((m.shards i).policy.map LruPolicy.bytes).getD 0)
    (cfg.maxMemoryBytes / cfg.shards) (by
      intro n hn
      obtain ⟨i, -, rfl⟩ := List.mem_map.mp hn
      exact hshare i)
  rw [List.length_map, List.length_finRange, smul_eq_mul] at hsum
  exact hsum.trans (Nat.mul_div_le _ _)

/-- What was set is there. -/
theorem get_set {m : ShardedMap cfg} (h : CachesInBudget m) (key value : Bytes) :
    ((m.set key value).get key).2 = some value := by
  obtain ⟨cs, hholds, -⟩ := h
  rw [((hholds.set key value).get key).2, Caches.contents, Caches.set, Caches.evictIfNeeded,
    Function.update_self, Caches.applyOne, Function.update_self]
  exact Shard.lookup_settle_insert _ _ _ key value

/-! ## What is counted -/

/-- An entry that goes is counted. -/
theorem evictions_add_size {m : ShardedMap cfg} {cs : Caches cfg} (h : m.Holds cs)
    (i : Fin cfg.shards) :
    (m.evictIfNeeded i).evictions + (m.evictIfNeeded i).size = m.evictions + m.size := by
  obtain ⟨hholds, hcount⟩ := h.evictIfNeeded i
  have hi : ((m.evictIfNeeded i).shards i).map.entries.length
      = (Caches.settle cfg (cs i)).entries.length := by
    rw [(hholds.shards i).perm.length_eq, Caches.evictIfNeeded, Function.update_self]
  have hother : ∀ j, j ≠ i → ((m.evictIfNeeded i).shards j).map.entries.length
      = (m.shards j).map.entries.length := by
    intro j hj
    rw [ShardedMap.evictIfNeeded]
    dsimp only
    rw [Function.update_of_ne hj]
  have hsum := sum_add_of_eq_off hother
  rw [hi, (h.shards i).perm.length_eq, Fin.sum_univ_def, Fin.sum_univ_def] at hsum
  rw [ShardedMap.size, ShardedMap.size]
  omega

theorem foldl_evictions_add_size {m : ShardedMap cfg} {cs : Caches cfg} (h : m.Holds cs)
    (is : List (Fin cfg.shards)) :
    (is.foldl ShardedMap.evictIfNeeded m).evictions + (is.foldl ShardedMap.evictIfNeeded m).size
      = m.evictions + m.size := by
  induction is generalizing m cs with
  | nil => rfl
  | cons i is ih => exact (ih (h.evictIfNeeded i).1).trans (evictions_add_size h i)

theorem foldl_within (m : ShardedMap cfg) (is : List (Fin cfg.shards)) :
    Within (is.foldl ShardedMap.evictIfNeeded m).contents m.contents := by
  induction is generalizing m with
  | nil => exact Within.refl _
  | cons i is ih => exact (ih (m.evictIfNeeded i)).trans (ShardedMap.evictIfNeeded_within m i)

/-- The keys of one map that another one does not have. -/
def missing (m m' : ShardedMap cfg) : List Bytes :=
  (m.snapshot.map Prod.fst).filter fun key => (m'.contents key).isNone

/-- What one map has and a part of it has not is the difference of their sizes. -/
theorem length_missing {m m' : ShardedMap cfg} {cs cs' : Caches cfg} (h : m.Holds cs)
    (h' : m'.Holds cs') (hwithin : Within m'.contents m.contents) :
    (missing m m').length + m'.size = m.size := by
  have hmem : ∀ {m : ShardedMap cfg} {cs : Caches cfg}, m.Holds cs → ∀ key,
      key ∈ m.snapshot.map Prod.fst ↔ (m.contents key).isSome = true := by
    intro m cs h key
    rw [List.mem_map, Option.isSome_iff_exists]
    constructor
    · rintro ⟨⟨k, value⟩, hin, rfl⟩
      exact ⟨value, (h.mem_snapshot _ _).mp hin⟩
    · rintro ⟨value, hvalue⟩
      exact ⟨(key, value), (h.mem_snapshot _ _).mpr hvalue, rfl⟩
  -- the keys that are left are those of the part
  have hleft : ((m.snapshot.map Prod.fst).filter fun key => !(m'.contents key).isNone).Perm
      (m'.snapshot.map Prod.fst) := by
    rw [List.perm_ext_iff_of_nodup (h.nodup_snapshot.filter _) h'.nodup_snapshot]
    intro key
    rw [List.mem_filter, hmem h, hmem h', Option.not_isNone]
    refine ⟨fun hk => hk.2, fun hk => ⟨?_, hk⟩⟩
    obtain ⟨value, hvalue⟩ := Option.isSome_iff_exists.mp hk
    rw [hwithin key value hvalue]
    rfl
  have hsplit := List.length_eq_length_filter_add (l := m.snapshot.map Prod.fst)
    fun key => (m'.contents key).isNone
  rw [hleft.length_eq, List.length_map, List.length_map, ShardedMap.length_snapshot,
    ShardedMap.length_snapshot] at hsplit
  exact hsplit.symm

/-- The map as a call leaves it to the eviction loop. -/
def written (m : ShardedMap cfg) : MapCall → ShardedMap cfg
  | .set key value => m.applyOne { key := key, value := value }
  | .applyAtomically mutations => mutations.foldl ShardedMap.applyOne m
  | call => (call.run m).1

/-- The keys that the policy removes in a call. -/
def evictedBy (m : ShardedMap cfg) (call : MapCall) : List Bytes :=
  missing (written m call) (LockModes.perform m call).1

theorem foldl_applyOne_evictions (m : ShardedMap cfg) (mutations : List Mutation) :
    (mutations.foldl ShardedMap.applyOne m).evictions = m.evictions := by
  induction mutations generalizing m with
  | nil => rfl
  | cons mutation mutations ih => exact ih (m.applyOne mutation)

theorem getMany_evictions (m : ShardedMap cfg) (keys : List Bytes) :
    (m.getMany keys).1.evictions = m.evictions := by
  induction keys generalizing m with
  | nil => rfl
  | cons key keys ih => exact ih (m.get key).1

/-- A call is what it writes and then some evictions, from a map that has counted none yet. -/
theorem run_eq_evict {m : ShardedMap cfg} (call : MapCall) :
    (written m call).evictions = m.evictions
      ∧ ∃ is : List (Fin cfg.shards),
        (call.run m).1 = is.foldl ShardedMap.evictIfNeeded (written m call) := by
  cases call with
  | get key => exact ⟨rfl, [], rfl⟩
  | set key value => exact ⟨rfl, [cfg.shardFor key], rfl⟩
  | del key => exact ⟨rfl, [], rfl⟩
  | size => exact ⟨rfl, [], rfl⟩
  | getMany keys => exact ⟨getMany_evictions m keys, [], rfl⟩
  | snapshot => exact ⟨rfl, [], rfl⟩
  | applyAtomically mutations =>
      exact ⟨foldl_applyOne_evictions m mutations, ShardedMap.touched cfg mutations, rfl⟩
  | clear => exact ⟨rfl, [], rfl⟩

theorem holds_written {m : ShardedMap cfg} {cs : Caches cfg} (h : m.Holds cs) (call : MapCall) :
    ∃ cs', (written m call).Holds cs' := by
  cases call with
  | get key => exact ⟨_, (h.get key).1⟩
  | set key value => exact ⟨_, h.applyOne _⟩
  | del key => exact ⟨_, h.del key⟩
  | size => exact ⟨cs, h⟩
  | getMany keys => exact ⟨_, h.getMany keys⟩
  | snapshot => exact ⟨cs, h⟩
  | applyAtomically mutations => exact ⟨_, h.foldl_applyOne mutations⟩
  | clear => exact ⟨_, h.clear⟩

/-- **The counter counts the keys that the policy removes.** -/
theorem evictions_run {m : ShardedMap cfg} (h : CachesInBudget m) (call : MapCall) :
    (call.run m).1.evictions = m.evictions + (evictedBy m call).length := by
  obtain ⟨cs, hholds, -⟩ := h
  obtain ⟨cs', hwritten⟩ := holds_written hholds call
  obtain ⟨hcount, is, hrun⟩ := run_eq_evict (m := m) call
  have hsum := foldl_evictions_add_size hwritten is
  have hmissing := length_missing hwritten (hwritten.foldl_evictIfNeeded is)
    (foldl_within (written m call) is)
  rw [← hrun] at hsum hmissing
  rw [evictedBy, LockModes.perform_eq]
  omega

/-! ## After any calls -/

/-- A map, and what its policy has removed so far. -/
structure State (cfg : MapConfig) where
  map : ShardedMap cfg
  /-- The keys that the policy has removed. -/
  evicted : List Bytes := []

/-- A new map and any calls of it. -/
def system (cfg : MapConfig) : System (State cfg) MapCall where
  init s := s = { map := ShardedMap.init cfg }
  step s call :=
    some { map := (LockModes.perform s.map call).1, evicted := s.evicted ++ evictedBy s.map call }

theorem cachesInBudget_reachable {s : State cfg} (h : (system cfg).Reachable s) :
    CachesInBudget s.map ∧ s.map.evictions = s.evicted.length := by
  refine h.invariant (I := fun s => CachesInBudget s.map ∧ s.map.evictions = s.evicted.length) ?_ ?_
  · intro s hs
    rw [show s = _ from hs]
    exact ⟨cachesInBudget_init, rfl⟩
  · intro s call s' hs _ hstep
    cases hstep
    dsimp only
    rw [LockModes.perform_eq]
    refine ⟨cachesInBudget_run hs.1 call, ?_⟩
    rw [evictions_run hs.1, hs.2, List.length_append]

/--
**The memory budget is kept, whatever the calls.**

In every shard the map and the policy have the same keys, the policy's counter is the
sum of the sizes of the entries, and it is within the shard's share of the budget
unless there is one entry only. If every entry fits into a share, the map is within
the budget. A key that was just set is there, the count of evictions is the number of
keys the policy has removed, and the loop that removes them ends by itself.
-/
theorem memory_budget_kept (cfg : MapConfig) (hon : 0 < cfg.maxMemoryBytes) (s : State cfg)
    (hreach : (system cfg).Reachable s) :
    (∀ i, ∃ policy, (s.map.shards i).policy = some policy
        ∧ (∀ key, key ∈ policy.recency.map Prod.snd ↔ key ∈ (s.map.shards i).map)
        ∧ (∀ key, key ∈ policy.index ↔ key ∈ (s.map.shards i).map)
        ∧ policy.bytes
          = ((s.map.shards i).map.entries.map fun e => entryBytes e.1 e.2).sum
        ∧ (policy.bytes ≤ cfg.shardBudgetBytes ∨ (s.map.shards i).map.entries.length = 1))
      ∧ ((∀ i, ∀ e ∈ (s.map.shards i).map.entries,
            entryBytes e.1 e.2 ≤ cfg.shardBudgetBytes) →
          LockModes.bytesUsed s.map ≤ cfg.maxMemoryBytes)
      ∧ (∀ key value,
          (LockModes.perform (LockModes.perform s.map (.set key value)).1 (.get key)).2
            = .value (some value))
      ∧ s.map.evictions = s.evicted.length
      ∧ ∀ budget map policy evictions fuel, policy.recency.length ≤ fuel →
          Shard.evictLoop budget fuel map policy evictions
            = Shard.evictLoop budget policy.recency.length map policy evictions := by
  obtain ⟨hbudget, hcount⟩ := cachesInBudget_reachable hreach
  refine ⟨fun i => ?_, fun hfits => ?_, fun key value => ?_, hcount, ?_⟩
  · obtain ⟨policy, hpolicy, h⟩ := policyMatchesMap_of_cachesInBudget hon hbudget i
    exact ⟨policy, hpolicy, h.recency, h.index, h.bytes, h.within⟩
  · rw [LockModes.bytesUsed_eq]
    exact bytesUsed_le hon hbudget hfits
  · rw [LockModes.perform_eq, LockModes.perform_eq]
    exact congrArg MapResult.value (get_set hbudget key value)
  · intro budget map policy evictions fuel hfuel
    exact Shard.evictLoop_fuel budget fuel map policy evictions hfuel

/-- Room for two entries: with the third, the first is gone and counted. -/
theorem memory_budget_kept_third :
    let cfg : MapConfig := { shardCount := 1, maxMemoryBytes := 400, hash := fun _ => 0 }
    ∃ s, (system cfg).Reachable s ∧ s.evicted = [[97]] ∧ s.map.evictions = 1 := by
  intro cfg
  obtain ⟨s, hreach, hevicted⟩ := System.exists_reachableBy (p := fun s => s.evicted = [[97]])
    (show (system cfg).Reachable { map := ShardedMap.init cfg } from .init rfl)
    [.set [97] [1], .set [98] [2], .set [99] [3]] (by decide +kernel) (by decide +kernel)
  obtain ⟨-, -, -, hcount, -⟩ := memory_budget_kept cfg (by decide) s hreach
  rw [hevicted] at hcount
  exact ⟨s, hreach, hevicted, hcount⟩

end Budget

end KvStore
