import KvStore.Store.Caches

/-!
# The map in its four lock modes

`src/store/sharded_map.cpp` with the branches on the lock mode. Most calls select a
shard by the key in the mode `Sharded` and take the first one otherwise; some ask for
the key in two of the modes and not in the other two; and some go to the first shard
alone where there is no other.

Only `Sharded` has more than one shard, so it makes no difference: every call is the
one of `ShardedMap`, which has no modes (`perform_eq`).
-/

namespace KvStore

open Lib

/-- A call of the map. -/
inductive MapCall where
  | get (key : Bytes)
  | set (key value : Bytes)
  | del (key : Bytes)
  | size
  | getMany (keys : List Bytes)
  | snapshot
  | applyAtomically (mutations : List Mutation)
  | clear
  deriving DecidableEq, Repr

/-- What a call returns. -/
inductive MapResult where
  | nothing
  | value (found : Option Bytes)
  | removed (found : Bool)
  | count (entries : Nat)
  | values (found : List (Option Bytes))
  | pairs (entries : List (Bytes × Bytes))
  deriving DecidableEq, Repr

namespace MapConfig

variable (cfg : MapConfig)

/-- The index of `shards_[0]`. -/
def shardZero : Fin cfg.shards := ⟨0, cfg.shards_pos⟩

/-- `mode_ == LockMode::Sharded ? shardFor(key) : 0`. -/
def shardOf (key : Bytes) : Fin cfg.shards :=
  if cfg.lockMode = .sharded then cfg.shardFor key else cfg.shardZero

/-- `mode_ == LockMode::None || mode_ == LockMode::GlobalMutex`. -/
def unsharded : Bool := cfg.lockMode = .none ∨ cfg.lockMode = .globalMutex

end MapConfig

/-! ## The calls -/

namespace LockModes

variable {cfg : MapConfig}

/-- `ShardedMap::get`. -/
def get (m : ShardedMap cfg) (key : Bytes) : ShardedMap cfg × Option Bytes :=
  let r := (m.shards (cfg.shardOf key)).get key
  ({ m with shards := Function.update m.shards (cfg.shardOf key) r.1 }, r.2)

/-- `ShardedMap::set`. -/
def set (m : ShardedMap cfg) (key value : Bytes) : ShardedMap cfg :=
  let s := (m.shards (cfg.shardOf key)).insert key value
  ShardedMap.evictIfNeeded { m with shards := Function.update m.shards (cfg.shardOf key) s }
    (cfg.shardOf key)

/-- `ShardedMap::del`. -/
def del (m : ShardedMap cfg) (key : Bytes) : ShardedMap cfg × Bool :=
  let s := m.shards (cfg.shardOf key)
  ({ m with shards := Function.update m.shards (cfg.shardOf key) (s.erase key) },
    (s.map.lookup key).isSome)

/-- `ShardedMap::size`. -/
def size (m : ShardedMap cfg) : Nat :=
  match cfg.lockMode with
  | .globalMutex => (m.shards cfg.shardZero).map.entries.length
  | _ => ((List.finRange cfg.shards).map fun i => (m.shards i).map.entries.length).sum

/-- The lambda of `getMany`. -/
def readAll (m : ShardedMap cfg) : List Bytes → ShardedMap cfg × List (Option Bytes)
  | [] => (m, [])
  | key :: keys =>
      let r := get m key
      let rs := readAll r.1 keys
      (rs.1, r.2 :: rs.2)

/-- `ShardedMap::getMany`. -/
def getMany (m : ShardedMap cfg) (keys : List Bytes) : ShardedMap cfg × List (Option Bytes) :=
  if keys = [] then (m, []) else readAll m keys

/-- `ShardedMap::snapshot`. -/
def snapshot (m : ShardedMap cfg) : List (Bytes × Bytes) :=
  if cfg.unsharded then (m.shards cfg.shardZero).map.entries.map fun entry => (entry.1, entry.2)
  else
    (List.finRange cfg.shards).flatMap fun i =>
      (m.shards i).map.entries.map fun entry => (entry.1, entry.2)

/-- The lambda of `applyAtomically`, at `shards_[i]`. -/
def applyOne (m : ShardedMap cfg) (i : Fin cfg.shards) (mutation : Mutation) : ShardedMap cfg :=
  let s := m.shards i
  { m with
    shards := Function.update m.shards i
      (if mutation.erase then s.erase mutation.key else s.insert mutation.key mutation.value) }

/-- `ShardedMap::applyAtomically`. -/
def applyAtomically (m : ShardedMap cfg) (mutations : List Mutation) : ShardedMap cfg :=
  if mutations = [] then m
  else if cfg.unsharded then
    (mutations.foldl (fun m mutation => applyOne m cfg.shardZero mutation) m).evictIfNeeded
      cfg.shardZero
  else
    (ShardedMap.touched cfg mutations).foldl ShardedMap.evictIfNeeded
      (mutations.foldl (fun m mutation => applyOne m (cfg.shardFor mutation.key) mutation) m)

/-- `ShardedMap::clear`. -/
def clear (m : ShardedMap cfg) : ShardedMap cfg :=
  if cfg.unsharded then
    { m with
      shards := Function.update m.shards cfg.shardZero (m.shards cfg.shardZero).clear }
  else { m with shards := fun i => (m.shards i).clear }

/-- `ShardedMap::bytesUsed`. -/
def bytesUsed (m : ShardedMap cfg) : Nat :=
  if cfg.maxMemoryBytes = 0 then 0
  else
    match cfg.lockMode with
    | .globalMutex => ((m.shards cfg.shardZero).policy.map LruPolicy.bytes).getD 0
    | _ => ((List.finRange cfg.shards).map fun i =>
        ((m.shards i).policy.map LruPolicy.bytes).getD 0).sum

/-- A call and what it returns. -/
def perform (m : ShardedMap cfg) : MapCall → ShardedMap cfg × MapResult
  | .get key => ((get m key).1, .value (get m key).2)
  | .set key value => (set m key value, .nothing)
  | .del key => ((del m key).1, .removed (del m key).2)
  | .size => (m, .count (size m))
  | .getMany keys => ((getMany m keys).1, .values (getMany m keys).2)
  | .snapshot => (m, .pairs (snapshot m))
  | .applyAtomically mutations => (applyAtomically m mutations, .nothing)
  | .clear => (clear m, .nothing)

/-! ## The modes do the same -/

theorem eq_shardZero (h : cfg.lockMode ≠ .sharded) (i : Fin cfg.shards) : i = cfg.shardZero := by
  have hone : cfg.shards = 1 := by
    unfold MapConfig.shards
    split
    · rename_i hsharded
      exact absurd hsharded h
    · rfl
  have hi := i.isLt
  refine Fin.ext ?_
  show i.val = 0
  omega

theorem ne_sharded (h : cfg.unsharded = true) : cfg.lockMode ≠ .sharded := by
  rcases of_decide_eq_true h with h | h
  · rw [h]
    decide
  · rw [h]
    decide

theorem shardOf_eq (key : Bytes) : cfg.shardOf key = cfg.shardFor key := by
  unfold MapConfig.shardOf
  split
  · rfl
  · rename_i h
    exact (eq_shardZero h _).symm

/-- A list of shards that has one has no other. -/
theorem eq_singleton (h : cfg.lockMode ≠ .sharded) {is : List (Fin cfg.shards)} (hnodup : is.Nodup)
    (hne : is ≠ []) : is = [cfg.shardZero] := by
  have hall := List.eq_replicate_of_mem fun i (_ : i ∈ is) => eq_shardZero h i
  have hpos := List.length_pos_iff.mpr hne
  rw [hall, List.nodup_replicate] at hnodup
  rw [hall, show is.length = 1 by omega]
  rfl

theorem finRange_shards (h : cfg.lockMode ≠ .sharded) :
    List.finRange cfg.shards = [cfg.shardZero] :=
  eq_singleton h (List.nodup_finRange _) (List.ne_nil_of_mem (List.mem_finRange cfg.shardZero))

theorem get_eq (m : ShardedMap cfg) (key : Bytes) : get m key = m.get key := by
  rw [get, shardOf_eq]
  rfl

theorem set_eq (m : ShardedMap cfg) (key value : Bytes) : set m key value = m.set key value := by
  rw [set, shardOf_eq]
  rfl

theorem del_eq (m : ShardedMap cfg) (key : Bytes) : del m key = m.del key := by
  rw [del, shardOf_eq]
  rfl

theorem size_eq (m : ShardedMap cfg) : size m = m.size := by
  unfold size
  split
  · rename_i h
    rw [ShardedMap.size, finRange_shards (by rw [h]; decide), List.map_singleton,
      List.sum_singleton]
  · rfl

theorem getMany_eq (m : ShardedMap cfg) (keys : List Bytes) : getMany m keys = m.getMany keys := by
  have hread : readAll m keys = m.getMany keys := by
    induction keys generalizing m with
    | nil => rfl
    | cons key keys ih => rw [readAll, ShardedMap.getMany, get_eq, ih]
  unfold getMany
  split
  · rename_i hnil
    rw [hnil]
    rfl
  · exact hread

theorem snapshot_eq (m : ShardedMap cfg) : snapshot m = m.snapshot := by
  unfold snapshot
  split
  · rename_i h
    rw [ShardedMap.snapshot, finRange_shards (ne_sharded h), List.flatMap_singleton]
  · rfl

theorem touched_eq (h : cfg.lockMode ≠ .sharded) {mutations : List Mutation}
    (hne : mutations ≠ []) :
    ShardedMap.touched cfg mutations = [cfg.shardZero] := by
  refine eq_singleton h (List.nodup_dedup _) ?_
  obtain ⟨mutation, rest, rfl⟩ := List.exists_cons_of_ne_nil hne
  exact List.ne_nil_of_mem
    (ShardedMap.mem_touched.mpr (List.mem_map_of_mem (List.mem_cons_self ..)))

theorem applyAtomically_eq (m : ShardedMap cfg) (mutations : List Mutation) :
    applyAtomically m mutations = m.applyAtomically mutations := by
  unfold applyAtomically
  by_cases hnil : mutations = []
  · rw [if_pos hnil, hnil]
    rfl
  · rw [if_neg hnil]
    split
    · rename_i h
      rw [ShardedMap.applyAtomically, touched_eq (ne_sharded h) hnil]
      have hone : (fun (m : ShardedMap cfg) mutation => applyOne m cfg.shardZero mutation)
          = ShardedMap.applyOne := by
        funext m mutation
        rw [← eq_shardZero (ne_sharded h) (cfg.shardFor mutation.key)]
        rfl
      rw [hone]
      rfl
    · rfl

theorem clear_eq (m : ShardedMap cfg) : clear m = m.clear := by
  unfold clear
  split
  · rename_i h
    have hshards : Function.update m.shards cfg.shardZero (m.shards cfg.shardZero).clear
        = fun i => (m.shards i).clear := by
      funext i
      rw [eq_shardZero (ne_sharded h) i, Function.update_self]
    rw [hshards]
    rfl
  · rfl

theorem bytesUsed_eq (m : ShardedMap cfg) : bytesUsed m = m.bytesUsed := by
  unfold bytesUsed
  split
  · rename_i hoff
    have hnone : ∀ i, (m.shards i).policy = none := by
      intro i
      have hwf : (m.shards i).policy.isSome = false := by
        rw [(m.shards i).wf]
        exact decide_eq_false (by omega)
      exact Option.not_isSome_iff_eq_none.mp (by rw [hwf]; decide)
    simp [ShardedMap.bytesUsed, hnone]
  · split
    · rename_i h
      rw [ShardedMap.bytesUsed, finRange_shards (by rw [h]; decide), List.map_singleton,
        List.sum_singleton]
    · rfl

end LockModes

/-- A call without modes. -/
def MapCall.run {cfg : MapConfig} (m : ShardedMap cfg) : MapCall → ShardedMap cfg × MapResult
  | .get key => ((m.get key).1, .value (m.get key).2)
  | .set key value => (m.set key value, .nothing)
  | .del key => ((m.del key).1, .removed (m.del key).2)
  | .size => (m, .count m.size)
  | .getMany keys => ((m.getMany keys).1, .values (m.getMany keys).2)
  | .snapshot => (m, .pairs m.snapshot)
  | .applyAtomically mutations => (m.applyAtomically mutations, .nothing)
  | .clear => (m.clear, .nothing)

namespace LockModes

variable {cfg : MapConfig}

/-- **Every mode makes the same of a call.** -/
theorem perform_eq (m : ShardedMap cfg) (call : MapCall) : perform m call = call.run m := by
  cases call with
  | get key => rw [perform, get_eq, MapCall.run]
  | set key value => rw [perform, set_eq, MapCall.run]
  | del key => rw [perform, del_eq, MapCall.run]
  | size => rw [perform, size_eq, MapCall.run]
  | getMany keys => rw [perform, getMany_eq, MapCall.run]
  | snapshot => rw [perform, snapshot_eq, MapCall.run]
  | applyAtomically mutations => rw [perform, applyAtomically_eq, MapCall.run]
  | clear => rw [perform, clear_eq, MapCall.run]

/-! ## Calls one after another -/

/-- What a new map is after the calls. -/
def performAll (cfg : MapConfig) (calls : List MapCall) : ShardedMap cfg :=
  calls.foldl (fun m call => (perform m call).1) (ShardedMap.init cfg)

/-- **Simulation.** A machine that follows every call follows any calls. -/
theorem performAll_simulates {μ : Type} {R : ShardedMap cfg → μ → Prop} {next : μ → MapCall → μ}
    {r : μ} (hinit : R (ShardedMap.init cfg) r)
    (hstep : ∀ m r call, R m r → R (MapCall.run m call).1 (next r call)) (calls : List MapCall) :
    R (performAll cfg calls) (calls.foldl next r) := by
  unfold performAll
  generalize ShardedMap.init cfg = m at hinit
  induction calls generalizing m r with
  | nil => exact hinit
  | cons call calls ih =>
      have hnext : R (perform m call).1 (next r call) := by
        rw [perform_eq]
        exact hstep m r call hinit
      exact ih _ hnext

end LockModes

end KvStore
