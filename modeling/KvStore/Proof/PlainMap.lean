import KvStore.Store.LockModes
import Mathlib.Data.Finmap

/-!
# The sharded map is a plain map

With eviction off, a client cannot tell the map from one finite map: whatever the
hash function, the lock mode and the number of shards, every call has the result that
the plain map gives, in any sequence of calls.

The shards drop out because a key lives in the shard its hash selects and in no other.
That a mask selects a shard at all is due to the rounding loop, which ends at a power
of two before the word is exhausted.
-/

namespace KvStore

open Lib

/-! ## The number of shards -/

/-- The loop ends at the least power of two that is large enough. -/
theorem roundUpLoop_spec {n : Nat} :
    ∀ (fuel j : Nat), n ≤ 2 ^ (j + fuel) →
      ∃ k, roundUpLoop n fuel (2 ^ j) = 2 ^ k ∧ n ≤ 2 ^ k ∧ ∀ l, j ≤ l → n ≤ 2 ^ l → k ≤ l
  | 0, j, h => ⟨j, rfl, h, fun _ hl _ => hl⟩
  | fuel + 1, j, h => by
      rw [roundUpLoop]
      split
      · rename_i hlt
        have hnext : n ≤ 2 ^ (j + 1 + fuel) := by rwa [Nat.add_assoc, Nat.add_comm 1]
        obtain ⟨k, heq, hle, hleast⟩ := roundUpLoop_spec fuel (j + 1) hnext
        refine ⟨k, ?_, hle, fun l hl hn => hleast l ?_ hn⟩
        · rw [Nat.shiftLeft_eq, ← Nat.pow_succ]
          exact heq
        · exact (Nat.pow_lt_pow_iff_right (by decide)).mp (Nat.lt_of_lt_of_le hlt hn)
      · rename_i hge
        exact ⟨j, rfl, Nat.not_lt.mp hge, fun _ hl _ => hl⟩

/-- **The shard count is a power of two**, large enough and within the word. -/
theorem roundUpToPowerOfTwo_spec {n : Nat} (h : n ≤ 2 ^ 63) :
    ∃ k ≤ 63, roundUpToPowerOfTwo n = 2 ^ k ∧ n ≤ 2 ^ k := by
  unfold roundUpToPowerOfTwo
  split
  · rename_i hone
    exact ⟨0, by omega, rfl, hone⟩
  · obtain ⟨k, heq, hle, hleast⟩ :=
      roundUpLoop_spec 64 0 (h.trans (Nat.pow_le_pow_right (by decide) (by decide)))
    exact ⟨k, hleast 63 (by omega) h, heq, hle⟩

theorem MapConfig.shards_spec {cfg : MapConfig} (h : cfg.shardCount ≤ 2 ^ 63) :
    (∃ k ≤ 63, cfg.shards = 2 ^ k) ∧ (cfg.lockMode = .sharded → cfg.shardCount ≤ cfg.shards) := by
  unfold MapConfig.shards
  split
  · obtain ⟨k, hk, heq, hle⟩ := roundUpToPowerOfTwo_spec h
    rw [heq]
    exact ⟨⟨k, hk, rfl⟩, fun _ => hle⟩
  · rename_i hmode
    exact ⟨⟨0, by omega, rfl⟩, fun hsharded => absurd hsharded hmode⟩

namespace PlainMap

/-! ## One finite map -/

/-- A map without shards and without a budget. -/
abbrev Plain := Finmap fun _ : Bytes => Bytes

/-- One mutation of it. -/
def Plain.applyOne (r : Plain) (mutation : Mutation) : Plain :=
  if mutation.erase then r.erase mutation.key else r.insert mutation.key mutation.value

/-- What a call makes of the plain map. -/
def Plain.next (r : Plain) : MapCall → Plain
  | .get _ => r
  | .set key value => r.insert key value
  | .del key => r.erase key
  | .size => r
  | .getMany _ => r
  | .snapshot => r
  | .applyAtomically mutations => mutations.foldl Plain.applyOne r
  | .clear => ∅

/-- What a call has to return. The order of a snapshot is nobody's business. -/
def Plain.Answers (r : Plain) (result : MapResult) : MapCall → Prop
  | .get key => result = .value (r.lookup key)
  | .set _ _ => result = .nothing
  | .del key => result = .removed (r.lookup key).isSome
  | .size => result = .count r.keys.card
  | .getMany keys => result = .values (keys.map fun key => r.lookup key)
  | .snapshot => ∃ pairs, result = .pairs pairs ∧ (pairs.map Prod.fst).Nodup
      ∧ ∀ key value, (key, value) ∈ pairs ↔ r.lookup key = some value
  | .applyAtomically _ => result = .nothing
  | .clear => result = .nothing

theorem lookup_applyOne (r : Plain) (mutation : Mutation) :
    (fun key => (r.applyOne mutation).lookup key)
      = runUpdates [toUpdate mutation] fun key => r.lookup key := by
  funext key
  rw [runUpdates_cons, runUpdates_nil, toUpdate, Plain.applyOne]
  by_cases hkey : key = mutation.key
  · subst hkey
    rw [Function.update_self]
    split
    · exact Finmap.lookup_erase ..
    · exact Finmap.lookup_insert _
  · rw [Function.update_of_ne hkey]
    split
    · exact Finmap.lookup_erase_ne hkey
    · exact Finmap.lookup_insert_of_ne _ hkey

theorem lookup_foldl_applyOne (mutations : List Mutation) (r : Plain) :
    (fun key => (mutations.foldl Plain.applyOne r).lookup key)
      = runUpdates (mutations.map toUpdate) fun key => r.lookup key := by
  induction mutations generalizing r with
  | nil => rfl
  | cons mutation mutations ih => rw [List.foldl_cons, ih, lookup_applyOne]; rfl

/-! ## The shards mirror it -/

variable {cfg : MapConfig}

/-- The shards have the entries of the plain map, each where its key belongs. -/
structure Mirrors (m : ShardedMap cfg) (r : Plain) : Prop where
  held : ∃ cs, m.Holds cs
  contents : m.contents = fun key => r.lookup key

theorem mirrors_init : Mirrors (ShardedMap.init cfg) ∅ where
  held := ⟨_, ShardedMap.holds_init⟩
  contents := by
    funext key
    rw [ShardedMap.contents_init, Finmap.lookup_empty]

namespace Mirrors

variable {m : ShardedMap cfg} {r : Plain}

theorem run (hoff : cfg.maxMemoryBytes = 0) (h : Mirrors m r) (call : MapCall) :
    Mirrors (call.run m).1 (r.next call) := by
  obtain ⟨⟨cs, hheld⟩, hcontents⟩ := h
  cases call with
  | get key => exact ⟨⟨_, (hheld.get key).1⟩, (ShardedMap.contents_get m key).trans hcontents⟩
  | set key value =>
      refine ⟨⟨_, hheld.set key value⟩, (ShardedMap.contents_set hoff m key value).trans ?_⟩
      rw [hcontents]
      exact (lookup_applyOne r { key := key, value := value }).symm
  | del key =>
      refine ⟨⟨_, hheld.del key⟩, (ShardedMap.contents_del m key).trans ?_⟩
      rw [hcontents]
      exact (lookup_applyOne r { erase := true, key := key }).symm
  | size => exact ⟨⟨cs, hheld⟩, hcontents⟩
  | getMany keys =>
      exact ⟨⟨_, hheld.getMany keys⟩, (ShardedMap.contents_getMany keys m).trans hcontents⟩
  | snapshot => exact ⟨⟨cs, hheld⟩, hcontents⟩
  | applyAtomically mutations =>
      refine ⟨⟨_, hheld.applyAtomically mutations⟩,
        (ShardedMap.contents_applyAtomically hoff m mutations).trans ?_⟩
      rw [hcontents]
      exact (lookup_foldl_applyOne mutations r).symm
  | clear =>
      refine ⟨⟨_, hheld.clear⟩, (ShardedMap.contents_clear m).trans ?_⟩
      funext key
      rw [Plain.next, Finmap.lookup_empty]

/-- The entries are counted once each. -/
theorem size_eq (h : Mirrors m r) : m.size = r.keys.card := by
  obtain ⟨⟨cs, hheld⟩, hcontents⟩ := h
  have hkeys : (m.snapshot.map Prod.fst).toFinset = r.keys := by
    ext key
    rw [List.mem_toFinset, List.mem_map, Finmap.mem_keys, ← Finmap.lookup_isSome,
      ← congrFun hcontents key, Option.isSome_iff_exists]
    constructor
    · rintro ⟨⟨k, value⟩, hmem, rfl⟩
      exact ⟨value, (hheld.mem_snapshot _ _).mp hmem⟩
    · rintro ⟨value, hvalue⟩
      exact ⟨(key, value), (hheld.mem_snapshot _ _).mpr hvalue, rfl⟩
  rw [← hkeys, List.toFinset_card_of_nodup hheld.nodup_snapshot, List.length_map,
    ShardedMap.length_snapshot]

theorem answers (h : Mirrors m r) (call : MapCall) : r.Answers (call.run m).2 call := by
  obtain ⟨⟨cs, hheld⟩, hcontents⟩ := id h
  cases call with
  | get key =>
      exact congrArg MapResult.value ((ShardedMap.get_result m key).trans (congrFun hcontents key))
  | set key value => exact rfl
  | del key =>
      exact congrArg (fun v : Option Bytes => MapResult.removed v.isSome) (congrFun hcontents key)
  | size => exact congrArg MapResult.count h.size_eq
  | getMany keys =>
      refine congrArg MapResult.values ?_
      rw [ShardedMap.getMany_result, hcontents]
  | snapshot =>
      refine ⟨m.snapshot, rfl, hheld.nodup_snapshot, fun key value => ?_⟩
      rw [hheld.mem_snapshot, hcontents]
  | applyAtomically mutations => exact rfl
  | clear => exact rfl

end Mirrors

theorem mirrors_performAll (hoff : cfg.maxMemoryBytes = 0) (calls : List MapCall) :
    Mirrors (LockModes.performAll cfg calls) (calls.foldl Plain.next ∅) :=
  LockModes.performAll_simulates mirrors_init (fun _ _ call h => h.run hoff call) calls

/--
**The sharded map refines one finite map.**

After any calls, the next call returns what the plain map answers after the same
calls; and the number of shards is a power of two that a mask can index.
-/
theorem sharded_refines_plain (cfg : MapConfig) (hoff : cfg.maxMemoryBytes = 0)
    (hcount : 1 ≤ cfg.shardCount ∧ cfg.shardCount ≤ 2 ^ 63) (calls : List MapCall)
    (call : MapCall) :
    Plain.Answers (calls.foldl Plain.next ∅)
        (LockModes.perform (LockModes.performAll cfg calls) call).2 call
      ∧ (∃ k ≤ 63, cfg.shards = 2 ^ k)
      ∧ (cfg.lockMode = .sharded → cfg.shardCount ≤ cfg.shards) := by
  refine ⟨?_, MapConfig.shards_spec hcount.2⟩
  rw [LockModes.perform_eq]
  exact (mirrors_performAll hoff calls).answers call

/-- Three shards are asked for and a key is written twice. -/
theorem sharded_refines_plain_twice :
    let cfg : MapConfig := { shardCount := 3, hash := fun key => UInt64.ofNat key.length }
    let calls : List MapCall := [.set [107] [1], .set [107, 107] [2],
      .applyAtomically [{ key := [107], value := [3] }, { erase := true, key := [107, 107] }]]
    (LockModes.perform (LockModes.performAll cfg calls) (.get [107])).2 = .value (some [3])
      ∧ cfg.shards = 4 := by
  intro cfg calls
  obtain ⟨hget, -, -⟩ := sharded_refines_plain cfg rfl ⟨by decide, by decide⟩ calls (.get [107])
  exact ⟨hget.trans (by decide +kernel), by decide +kernel⟩

end PlainMap

end KvStore
