import KvStore.Lib.Updates
import KvStore.Store.LruPolicy
import Mathlib.Data.List.Dedup
import Mathlib.Data.List.Sort

/-!
# The sharded map

`src/store/sharded_map.cpp`. The locks are what makes each call here atomic; what
a call computes does not depend on the lock mode, except that only `Sharded` has
more than one shard.

The number of shards, the memory budget and the hash function never change after
construction, so they are a parameter of the type rather than fields. A shard
carries the fact that it has a policy exactly when there is a budget.

`contents` is what a reader can find in the map. With eviction off, every call
acts on the contents as plain keyed updates; that is the second half of the file.
-/

namespace KvStore

open Lib

/-- `LockMode`. -/
inductive LockMode where
  | none
  | globalMutex
  | globalSharedMutex
  | sharded
  deriving DecidableEq, Repr

/-- What the program calls a lock mode. -/
def lockModeName : LockMode → String
  | .none => "none"
  | .globalMutex => "global-mutex"
  | .globalSharedMutex => "global-shared"
  | .sharded => "sharded"

/-- What a `ShardedMap` is built from, and the `std::hash` it uses. -/
structure MapConfig where
  lockMode : LockMode := .sharded
  shardCount : Nat := 16
  maxMemoryBytes : Nat := 0
  hash : Bytes → UInt64

/-- The doubling loop; sixty-four rounds reach every `std::size_t`. -/
def roundUpLoop (n : Nat) : Nat → Nat → Nat
  | 0, power => power
  | fuel + 1, power => if power < n then roundUpLoop n fuel (power <<< 1) else power

/-- `roundUpToPowerOfTwo`. -/
def roundUpToPowerOfTwo (n : Nat) : Nat := if n ≤ 1 then 1 else roundUpLoop n 64 1

theorem roundUpLoop_pos (n : Nat) : ∀ (fuel power : Nat), 0 < power → 0 < roundUpLoop n fuel power
  | 0, _, h => h
  | fuel + 1, power, h => by
      rw [roundUpLoop]
      split
      · exact roundUpLoop_pos n fuel _ (by rw [Nat.shiftLeft_eq]; omega)
      · exact h

namespace MapConfig

variable (cfg : MapConfig)

/-- `shards_.size()`. -/
def shards : Nat :=
  match cfg.lockMode with
  | .sharded => roundUpToPowerOfTwo cfg.shardCount
  | _ => 1

theorem shards_pos : 0 < cfg.shards := by
  unfold shards roundUpToPowerOfTwo
  split
  · split
    · exact Nat.one_pos
    · exact roundUpLoop_pos _ _ _ Nat.one_pos
  · exact Nat.one_pos

/-- Whether there is a budget. -/
def evictionEnabled : Bool := decide (cfg.maxMemoryBytes > 0)

/-- One shard's share of the budget. -/
def shardBudgetBytes : Nat :=
  if cfg.maxMemoryBytes / cfg.shards = 0 then 1 else cfg.maxMemoryBytes / cfg.shards

/-- The shard a key lives in: a bitmask, since the shard count is a power of two. -/
def shardFor (key : Bytes) : Fin cfg.shards :=
  ⟨(cfg.hash key).toNat &&& (cfg.shards - 1),
    Nat.lt_of_le_of_lt Nat.and_le_right (by have := cfg.shards_pos; omega)⟩

end MapConfig

/-- One shard; `evicting` says whether the map has a memory budget. -/
structure Shard (evicting : Bool) where
  map : AList (fun _ : Bytes => Bytes) := ∅
  policy : Option LruPolicy
  wf : policy.isSome = evicting

namespace Shard

variable {evicting : Bool}

theorem ext {s s' : Shard evicting} (hmap : s.map = s'.map) (hpolicy : s.policy = s'.policy) :
    s = s' := by
  obtain ⟨map, policy, wf⟩ := s
  obtain ⟨map', policy', wf'⟩ := s'
  cases hmap
  cases hpolicy
  rfl

/-- What an entry takes besides its key and its value. -/
def kEntryOverheadBytes : Nat := 192

/-- A shard with nothing in it. -/
def init (evicting : Bool) : Shard evicting :=
  { policy := if evicting then some {} else Option.none
    wf := by cases evicting <;> rfl }

/-- `shard.map[key] = value`, and the policy told by `onInsert`. -/
def insert (s : Shard evicting) (key value : Bytes) : Shard evicting :=
  { map := s.map.insert key value
    policy := s.policy.map (·.onStored key (key.length + value.length + kEntryOverheadBytes))
    wf := by rw [Option.isSome_map]; exact s.wf }

theorem isSome_onErase (s : Shard evicting) (key : Bytes) :
    (s.policy.map (·.onErase key)).isSome = evicting := by
  rw [Option.isSome_map]
  exact s.wf

/-- `shard.map.erase(key)`, and the policy told. -/
def erase (s : Shard evicting) (key : Bytes) : Shard evicting :=
  { map := s.map.erase key
    policy := s.policy.map (·.onErase key)
    wf := s.isSome_onErase key }

/-- The value of a key, if it is there, and then the policy told. -/
def get (s : Shard evicting) (key : Bytes) : Shard evicting × Option Bytes :=
  match s.map.lookup key with
  | none => (s, none)
  | some value =>
      ({ map := s.map
         policy := s.policy.map (·.onAccess key)
         wf := by rw [Option.isSome_map]; exact s.wf }, some value)

/-- The loop of `evictIfNeeded`; each round takes a node off the recency list. -/
def evictLoop (budget : Nat) : Nat → AList (fun _ : Bytes => Bytes) → LruPolicy → Nat →
    AList (fun _ : Bytes => Bytes) × LruPolicy × Nat
  | 0, map, policy, evictions => (map, policy, evictions)
  | fuel + 1, map, policy, evictions =>
      if policy.bytes > budget ∧ policy.entries > 1 then
        match policy.evict with
        | none => (map, policy, evictions)
        | some (victim, policy') => evictLoop budget fuel (map.erase victim) policy' (evictions + 1)
      else (map, policy, evictions)

/-- The shard after eviction, and the new count of evictions. -/
def evictIfNeeded (s : Shard evicting) (budget evictions : Nat) : Shard evicting × Nat :=
  match h : s.policy with
  | none => (s, evictions)
  | some policy =>
      let r := evictLoop budget policy.recency.length s.map policy evictions
      ({ map := r.1, policy := some r.2.1, wf := by rw [← s.wf, h]; rfl }, r.2.2)

/-- `clearShard`. -/
def clear (s : Shard evicting) : Shard evicting :=
  { map := ∅
    policy := s.policy.map fun p => s.map.keys.foldl LruPolicy.onErase p
    wf := by rw [Option.isSome_map]; exact s.wf }

end Shard

/-- The shards, and how many entries were evicted. -/
structure ShardedMap (cfg : MapConfig) where
  shards : Fin cfg.shards → Shard cfg.evictionEnabled
  evictions : Nat := 0

namespace ShardedMap

variable {cfg : MapConfig}

/-- A map with nothing in it. -/
def init (cfg : MapConfig) : ShardedMap cfg := { shards := fun _ => Shard.init _ }

/-- Evict from one shard. -/
def evictIfNeeded (m : ShardedMap cfg) (i : Fin cfg.shards) : ShardedMap cfg :=
  let r := (m.shards i).evictIfNeeded cfg.shardBudgetBytes m.evictions
  { shards := Function.update m.shards i r.1, evictions := r.2 }

/-- `ShardedMap::set`. -/
def set (m : ShardedMap cfg) (key value : Bytes) : ShardedMap cfg :=
  let i := cfg.shardFor key
  evictIfNeeded { m with shards := Function.update m.shards i ((m.shards i).insert key value) } i

/-- The map without the key, and whether it was there. -/
def del (m : ShardedMap cfg) (key : Bytes) : ShardedMap cfg × Bool :=
  let i := cfg.shardFor key
  ({ m with shards := Function.update m.shards i ((m.shards i).erase key) },
    ((m.shards i).map.lookup key).isSome)

/-- `ShardedMap::get`. -/
def get (m : ShardedMap cfg) (key : Bytes) : ShardedMap cfg × Option Bytes :=
  let i := cfg.shardFor key
  let r := (m.shards i).get key
  ({ m with shards := Function.update m.shards i r.1 }, r.2)

/-- The `readAll` of `getMany`. -/
def getMany (m : ShardedMap cfg) : List Bytes → ShardedMap cfg × List (Option Bytes)
  | [] => (m, [])
  | key :: keys =>
      let r := m.get key
      let rs := r.1.getMany keys
      (rs.1, r.2 :: rs.2)

/-- The `applyOne` of `applyAtomically`: no eviction until the whole list is in. -/
def applyOne (m : ShardedMap cfg) (mutation : Mutation) : ShardedMap cfg :=
  let i := cfg.shardFor mutation.key
  let s := m.shards i
  { m with
    shards := Function.update m.shards i
      (if mutation.erase then s.erase mutation.key else s.insert mutation.key mutation.value) }

/-- The shards a list of mutations touches, in the order their locks are taken. -/
def touched (cfg : MapConfig) (mutations : List Mutation) : List (Fin cfg.shards) :=
  ((mutations.map fun mutation => cfg.shardFor mutation.key).insertionSort (· ≤ ·)).dedup

theorem mem_dedup_insertionSort {n : Nat} {is : List (Fin n)} {i : Fin n} :
    i ∈ (is.insertionSort (· ≤ ·)).dedup ↔ i ∈ is := by
  rw [List.mem_dedup]
  exact (List.perm_insertionSort _ _).mem_iff

theorem mem_touched {mutations : List Mutation} {i : Fin cfg.shards} :
    i ∈ touched cfg mutations ↔ i ∈ mutations.map fun mutation => cfg.shardFor mutation.key :=
  mem_dedup_insertionSort

/-- `ShardedMap::applyAtomically`. -/
def applyAtomically (m : ShardedMap cfg) (mutations : List Mutation) : ShardedMap cfg :=
  (touched cfg mutations).foldl evictIfNeeded (mutations.foldl applyOne m)

/-- `ShardedMap::clear`. -/
def clear (m : ShardedMap cfg) : ShardedMap cfg := { m with shards := fun i => (m.shards i).clear }

/-- `ShardedMap::size`. -/
def size (m : ShardedMap cfg) : Nat :=
  ((List.finRange cfg.shards).map fun i => (m.shards i).map.entries.length).sum

/-- Only a map with a budget keeps count. -/
def bytesUsed (m : ShardedMap cfg) : Nat :=
  ((List.finRange cfg.shards).map fun i => ((m.shards i).policy.map LruPolicy.bytes).getD 0).sum

/-- Every entry, shard by shard. -/
def snapshot (m : ShardedMap cfg) : List (Bytes × Bytes) :=
  (List.finRange cfg.shards).flatMap fun i =>
    (m.shards i).map.entries.map fun entry => (entry.1, entry.2)

/-- What a reader can find. -/
def contents (m : ShardedMap cfg) (key : Bytes) : Option Bytes :=
  (m.shards (cfg.shardFor key)).map.lookup key

end ShardedMap

/-! ## With eviction off, calls are keyed updates -/

/-- What a mutation does to the contents. -/
def toUpdate (mutation : Mutation) : Update Bytes Bytes :=
  (mutation.key, if mutation.erase then none else some mutation.value)

theorem Shard.evictIfNeeded_off {s : Shard false} {budget evictions : Nat} :
    s.evictIfNeeded budget evictions = (s, evictions) := by
  have hnone : s.policy = none := by
    have := s.wf
    simpa using this
  unfold Shard.evictIfNeeded
  split
  · rfl
  · rename_i policy hp
    rw [hnone] at hp
    exact absurd hp (by simp)

namespace ShardedMap

variable {cfg : MapConfig}

theorem evictIfNeeded_off (hoff : cfg.maxMemoryBytes = 0) (m : ShardedMap cfg)
    (i : Fin cfg.shards) : m.evictIfNeeded i = m := by
  have hev : cfg.evictionEnabled = false := by simp [MapConfig.evictionEnabled, hoff]
  have hkey : ∀ (e : Bool) (s : Shard e), e = false → ∀ b n, s.evictIfNeeded b n = (s, n) := by
    intro e s he b n
    subst he
    exact Shard.evictIfNeeded_off
  unfold evictIfNeeded
  rw [hkey _ _ hev]
  simp

theorem foldl_evictIfNeeded_off (hoff : cfg.maxMemoryBytes = 0) (is : List (Fin cfg.shards))
    (m : ShardedMap cfg) : is.foldl evictIfNeeded m = m := by
  induction is with
  | nil => rfl
  | cons i is ih => rw [List.foldl_cons, evictIfNeeded_off hoff, ih]

/-- Changing one shard shows only at the keys that live there. -/
theorem contents_update (m : ShardedMap cfg) (key : Bytes) (s : Shard cfg.evictionEnabled)
    (o : Option Bytes) (hkey : s.map.lookup key = o)
    (hother : ∀ k, k ≠ key → s.map.lookup k = (m.shards (cfg.shardFor key)).map.lookup k) :
    contents { m with shards := Function.update m.shards (cfg.shardFor key) s }
      = Function.update m.contents key o := by
  funext k
  unfold contents
  by_cases hk : k = key
  · subst hk
    simp [hkey]
  · rw [Function.update_of_ne hk]
    -- another key of the same shard, or another shard
    by_cases hi : cfg.shardFor k = cfg.shardFor key
    · simp [hi, hother k hk]
    · simp [hi]

theorem contents_applyOne (m : ShardedMap cfg) (mutation : Mutation) :
    (m.applyOne mutation).contents = runUpdates [toUpdate mutation] m.contents := by
  unfold applyOne
  cases he : mutation.erase with
  | false =>
      rw [contents_update m mutation.key _ (some mutation.value)]
      · simp [toUpdate, he]
      · simp [Shard.insert]
      · intro k hk
        simp [Shard.insert, AList.lookup_insert_ne hk]
  | true =>
      rw [contents_update m mutation.key _ none]
      · simp [toUpdate, he]
      · simp [Shard.erase]
      · intro k hk
        simp [Shard.erase, AList.lookup_erase_ne hk]

theorem contents_foldl_applyOne (mutations : List Mutation) (m : ShardedMap cfg) :
    (mutations.foldl applyOne m).contents = runUpdates (mutations.map toUpdate) m.contents := by
  induction mutations generalizing m with
  | nil => rfl
  | cons mutation mutations ih =>
      rw [List.foldl_cons, ih, contents_applyOne]
      rfl

/-- **A transaction is its mutations, left to right.** -/
theorem contents_applyAtomically (hoff : cfg.maxMemoryBytes = 0) (m : ShardedMap cfg)
    (mutations : List Mutation) :
    (m.applyAtomically mutations).contents = runUpdates (mutations.map toUpdate) m.contents := by
  rw [applyAtomically, foldl_evictIfNeeded_off hoff, contents_foldl_applyOne]

theorem contents_set (hoff : cfg.maxMemoryBytes = 0) (m : ShardedMap cfg) (key value : Bytes) :
    (m.set key value).contents = Function.update m.contents key (some value) := by
  unfold set
  rw [evictIfNeeded_off hoff]
  exact contents_applyOne m { key := key, value := value }

theorem contents_del (m : ShardedMap cfg) (key : Bytes) :
    (m.del key).1.contents = Function.update m.contents key none :=
  contents_applyOne m { erase := true, key := key }

@[simp] theorem contents_init : (init cfg).contents = fun _ => none := by
  funext key
  simp [contents, init, Shard.init]

theorem contents_clear (m : ShardedMap cfg) : m.clear.contents = fun _ => none := by
  funext key
  simp [contents, clear, Shard.clear]

/-- There is nothing to clear in a map just built. -/
theorem clear_init : (init cfg).clear = init cfg := by
  have hshard : ∀ e, (Shard.init e).clear = Shard.init e := by
    intro e
    cases e <;> rfl
  unfold clear init
  congr
  funext i
  exact hshard _

end ShardedMap

/-! ## With eviction on, some of it may be gone -/

/-- The loop takes entries away, and does nothing else to the map. -/
theorem Shard.evictLoop_within (budget : Nat) (fuel : Nat) (map : AList fun _ : Bytes => Bytes)
    (policy : LruPolicy) (evictions : Nat) :
    Within (fun key => (evictLoop budget fuel map policy evictions).1.lookup key)
      fun key => map.lookup key := by
  induction fuel generalizing map policy evictions with
  | zero => exact Within.refl _
  | succ fuel ih =>
      rw [evictLoop]
      split
      · split
        · exact Within.refl _
        · rename_i victim policy' _
          refine (ih (map.erase victim) policy' (evictions + 1)).trans fun key value h => ?_
          dsimp only at h
          by_cases hkey : key = victim
          · subst hkey
            rw [AList.lookup_erase] at h
            exact absurd h (by simp)
          · rwa [AList.lookup_erase_ne hkey] at h
      · exact Within.refl _

theorem Shard.evictIfNeeded_within {evicting : Bool} (s : Shard evicting) (budget evictions : Nat) :
    Within (fun key => (s.evictIfNeeded budget evictions).1.map.lookup key)
      fun key => s.map.lookup key := by
  unfold evictIfNeeded
  split
  · exact Within.refl _
  · exact evictLoop_within budget _ s.map _ evictions

namespace ShardedMap

variable {cfg : MapConfig}

theorem evictIfNeeded_within (m : ShardedMap cfg) (i : Fin cfg.shards) :
    Within (m.evictIfNeeded i).contents m.contents := by
  intro key value h
  unfold evictIfNeeded contents at h
  by_cases hi : cfg.shardFor key = i
  · subst hi
    dsimp only at h
    rw [Function.update_self] at h
    exact (m.shards _).evictIfNeeded_within _ _ key value h
  · dsimp only at h
    rwa [Function.update_of_ne hi] at h

theorem set_within (m : ShardedMap cfg) (key value : Bytes) :
    Within (m.set key value).contents (Function.update m.contents key (some value)) := by
  have hone := contents_applyOne m { key := key, value := value }
  rw [show Function.update m.contents key (some value) = _ from hone.symm]
  exact evictIfNeeded_within _ _

theorem applyAtomically_within (m : ShardedMap cfg) (mutations : List Mutation) :
    Within (m.applyAtomically mutations).contents
      (runUpdates (mutations.map toUpdate) m.contents) := by
  rw [← contents_foldl_applyOne, applyAtomically]
  generalize mutations.foldl applyOne m = m'
  induction touched cfg mutations generalizing m' with
  | nil => exact Within.refl _
  | cons i is ih => exact (ih (m'.evictIfNeeded i)).trans (evictIfNeeded_within m' i)

end ShardedMap

/-! ## Reading changes nothing that can be read -/

theorem Shard.get_result {evicting : Bool} (s : Shard evicting) (key : Bytes) :
    (s.get key).2 = s.map.lookup key := by
  unfold get
  split
  · rename_i h
    exact h.symm
  · rename_i h
    exact h.symm

theorem Shard.get_map {evicting : Bool} (s : Shard evicting) (key : Bytes) :
    (s.get key).1.map = s.map := by
  unfold get
  split
  · rfl
  · rfl

namespace ShardedMap

variable {cfg : MapConfig}

theorem get_result (m : ShardedMap cfg) (key : Bytes) : (m.get key).2 = m.contents key :=
  Shard.get_result _ key

theorem contents_get (m : ShardedMap cfg) (key : Bytes) : (m.get key).1.contents = m.contents := by
  funext k
  unfold get contents
  dsimp only
  by_cases hi : cfg.shardFor k = cfg.shardFor key
  · rw [hi, Function.update_self, Shard.get_map]
  · rw [Function.update_of_ne hi]

theorem contents_getMany (keys : List Bytes) (m : ShardedMap cfg) :
    (m.getMany keys).1.contents = m.contents := by
  induction keys generalizing m with
  | nil => rfl
  | cons key keys ih => rw [getMany, ih, contents_get]

theorem getMany_result (keys : List Bytes) (m : ShardedMap cfg) :
    (m.getMany keys).2 = keys.map m.contents := by
  induction keys generalizing m with
  | nil => rfl
  | cons key keys ih => rw [getMany, ih, contents_get, get_result, List.map_cons]

end ShardedMap

end KvStore
