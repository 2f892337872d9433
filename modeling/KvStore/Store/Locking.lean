import KvStore.Lib.TwoPhase
import KvStore.Store.ShardedMap

/-!
# The sharded map among threads

`src/store/sharded_map.cpp` once more, step by step: every lock that a call takes, every
entry that it touches, in the order in which the mode `Sharded` does it. (The mode
`GlobalSharedMutex` runs the same code on one shard.) A mutex is that of a shard, and
shards are cells.

A read tells the policy, if there is one, and then it needs the shard to itself. The
count of evictions is an atomic of its own and no part of any shard.
-/

namespace KvStore

open Lib TwoPhase

/-- One round of the loop of `evictIfNeeded`, if there is a round to be made. -/
def Shard.evictOne {evicting : Bool} (s : Shard evicting) (budget : Nat) :
    Option (Shard evicting) :=
  match h : s.policy with
  | none => none
  | some policy =>
      if policy.bytes > budget ∧ policy.entries > 1 then
        match policy.evict with
        | none => none
        | some (victim, policy') =>
            some
              { map := s.map.erase victim
                policy := some policy'
                wf := by rw [← s.wf, h]; rfl }
      else none

/-- `policy->onErase(key)`. -/
def Shard.forget {evicting : Bool} (s : Shard evicting) (key : Bytes) : Shard evicting :=
  { s with
    policy := s.policy.map (·.onErase key)
    wf := s.isSome_onErase key }

/-- `map.clear()`. -/
def Shard.emptied {evicting : Bool} (s : Shard evicting) : Shard evicting := { s with map := ∅ }

namespace Locking

/-- A call of the map. -/
inductive Call where
  | set (key value : Bytes)
  | del (key : Bytes)
  | get (key : Bytes)
  | getMany (keys : List Bytes)
  | applyAtomically (mutations : List Mutation)
  | size
  | clear
  deriving DecidableEq, Repr

/-- What a call returns. -/
inductive Result where
  | nothing
  | removed (found : Bool)
  | value (found : Option Bytes)
  | values (found : List (Option Bytes))
  | count (entries : Nat)
  deriving DecidableEq, Repr

/-- What is left of a call on a map. -/
abbrev Code (cfg : MapConfig) := Prog (Fin cfg.shards) (Shard cfg.evictionEnabled) Result

variable (cfg : MapConfig)

/-- The lock of a call that reads. -/
def readMode : Mode := if cfg.evictionEnabled then .exclusive else .shared

variable {cfg}

/-- The loop of `evictIfNeeded`. -/
def evictRounds (i : Fin cfg.shards) (next : Code cfg) : Nat → Code cfg
  | 0 => next
  | fuel + 1 =>
      .access i (fun s => (s.evictOne cfg.shardBudgetBytes).getD s) fun s =>
        if (s.evictOne cfg.shardBudgetBytes).isSome then evictRounds i next fuel else next

/-- `evictIfNeeded`, inside the lock of the shard. -/
def evictIfNeeded (i : Fin cfg.shards) (next : Code cfg) : Code cfg :=
  .access i id fun s =>
    match s.policy with
    | none => next
    | some policy => evictRounds i next policy.recency.length

/-- `ShardedMap::set`. -/
def setCode (key value : Bytes) : Code cfg :=
  .acquire (cfg.shardFor key) .exclusive
    (.access (cfg.shardFor key) (·.insert key value) fun _ =>
      evictIfNeeded (cfg.shardFor key) (.done .nothing))

/-- `ShardedMap::del`. -/
def delCode (key : Bytes) : Code cfg :=
  .acquire (cfg.shardFor key) .exclusive
    (.access (cfg.shardFor key) (·.erase key) fun s => .done (.removed (s.map.lookup key).isSome))

/-- One lookup, and what is done with what it found. -/
def lookup (key : Bytes) (next : Option Bytes → Code cfg) : Code cfg :=
  .access (cfg.shardFor key) (fun s => (s.get key).1) fun s => next (s.get key).2

/-- `ShardedMap::get`. -/
def getCode (key : Bytes) : Code cfg :=
  .acquire (cfg.shardFor key) (readMode cfg) (lookup key fun value => .done (.value value))

/-- `touched` in `getMany`. -/
def touchedKeys (cfg : MapConfig) (keys : List Bytes) : List (Fin cfg.shards) :=
  ((keys.map cfg.shardFor).insertionSort (· ≤ ·)).dedup

/-- `readAll` in `getMany`; `results` are those of the keys before. -/
def readAll : List Bytes → List (Option Bytes) → Code cfg
  | [], results => .done (.values results)
  | key :: keys, results => lookup key fun value => readAll keys (results ++ [value])

/-- `ShardedMap::getMany`. -/
def getManyCode (keys : List Bytes) : Code cfg :=
  if keys = [] then .done (.values [])
  else .lockAll (readMode cfg) (touchedKeys cfg keys) (readAll keys [])

/-- The loop over the mutations. -/
def applyAll (next : Code cfg) : List Mutation → Code cfg
  | [] => next
  | mutation :: mutations =>
      .access (cfg.shardFor mutation.key)
        (fun s =>
          if mutation.erase then s.erase mutation.key
          else s.insert mutation.key mutation.value)
        fun _ => applyAll next mutations

/-- `ShardedMap::applyAtomically`. -/
def applyAtomicallyCode (mutations : List Mutation) : Code cfg :=
  if mutations = [] then .done .nothing
  else
    .lockAll .exclusive (ShardedMap.touched cfg mutations)
      (applyAll
        ((ShardedMap.touched cfg mutations).foldr evictIfNeeded (.done .nothing)) mutations)

/-- The loop of `size`: a lock, and the number of entries behind it. -/
def sizeFrom : List (Fin cfg.shards) → Nat → Code cfg
  | [], total => .done (.count total)
  | i :: shards, total =>
      .acquire i .shared (.access i id fun s => sizeFrom shards (total + s.map.entries.length))

/-- `clearShard`: one entry after another, where there is a policy, and then the map. -/
def clearShard (i : Fin cfg.shards) (next : Code cfg) : Code cfg :=
  .access i id fun s =>
    (if s.policy.isSome then s.map.keys else []).foldr
      (fun key next => .access i (·.forget key) fun _ => next)
      (.access i Shard.emptied fun _ => next)

/-- `ShardedMap::clear`. -/
def clearCode : Code cfg :=
  .lockAll .exclusive (List.finRange cfg.shards)
    ((List.finRange cfg.shards).foldr clearShard (.done .nothing))

variable (cfg) in
/-- What a call does in the mode `Sharded`. -/
def code : Call → Code cfg
  | .set key value => setCode key value
  | .del key => delCode key
  | .get key => getCode key
  | .getMany keys => getManyCode keys
  | .applyAtomically mutations => applyAtomicallyCode mutations
  | .size => sizeFrom (List.finRange cfg.shards) 0
  | .clear => clearCode

end Locking

end KvStore
