import KvStore.Protocol.Commands
import Mathlib.Data.List.AList

/-!
# The eviction policy

`src/store/lru_policy.cpp`. A `std::list` node has an identity of its own, which
is what the index keeps: an entry names its node, not its key, and splicing moves
the node it names. A node here is a number handed out when it is pushed.

The counter is a `std::size_t`, and so are the sizes it is told. The class takes any
sizes, and its counter wraps. A shard tells it the sizes of strings that are all in
memory at once, and there a wrap is out of reach; so what a shard calls is the same
function with the addition of the natural numbers.
-/

namespace KvStore

/-- The node of a key on the recency list, and the size it was inserted with. -/
structure LruPolicy.Entry where
  node : Nat
  bytes : Nat
  deriving DecidableEq, Repr

/-- The list, the index into it, and the counter. -/
structure LruPolicy where
  /-- Most recently used first. -/
  recency : List (Nat × Bytes) := []
  index : AList (fun _ : Bytes => LruPolicy.Entry) := ∅
  bytes : Nat := 0
  /-- The next node's number. -/
  nextNode : Nat := 0

namespace LruPolicy

/-- `size_t` subtraction, which wraps. -/
def sizeSub (a b : Nat) : Nat := if b ≤ a then a - b else a + 2 ^ 64 - b

/-- `size_t` addition, which wraps. -/
def sizeAdd (a b : Nat) : Nat := (a + b) % 2 ^ 64

/-- `recency_.splice(recency_.begin(), recency_, node)`. -/
def spliceToFront (l : List (Nat × Bytes)) (node : Nat) : List (Nat × Bytes) :=
  l.filter (fun x => x.1 = node) ++ l.filter (fun x => x.1 ≠ node)

/-- The number of keys that are tracked. -/
def entries (p : LruPolicy) : Nat := p.index.entries.length

/-- A key was read. -/
def onAccess (p : LruPolicy) (key : Bytes) : LruPolicy :=
  match p.index.lookup key with
  | none => p
  | some entry => { p with recency := spliceToFront p.recency entry.node }

/-- `onInsert`, with the addition of sizes left open. -/
def insertWith (add : Nat → Nat → Nat) (p : LruPolicy) (key : Bytes) (bytes : Nat) : LruPolicy :=
  match p.index.lookup key with
  | some entry =>
      { p with
        bytes := add (sizeSub p.bytes entry.bytes) bytes
        index := p.index.replace key { entry with bytes := bytes }
        recency := spliceToFront p.recency entry.node }
  | none =>
      { recency := (p.nextNode, key) :: p.recency
        index := p.index.insert key { node := p.nextNode, bytes := bytes }
        bytes := add p.bytes bytes
        nextNode := p.nextNode + 1 }

/-- A key was written: `bytes_ += bytes` wraps. -/
def onInsert : LruPolicy → Bytes → Nat → LruPolicy := insertWith sizeAdd

/-- A key was written to a shard, where the sizes are those of strings in memory. -/
def onStored : LruPolicy → Bytes → Nat → LruPolicy := insertWith (· + ·)

/-- A key was deleted. -/
def onErase (p : LruPolicy) (key : Bytes) : LruPolicy :=
  match p.index.lookup key with
  | none => p
  | some entry =>
      { p with
        bytes := sizeSub p.bytes entry.bytes
        recency := p.recency.filter fun x => x.1 ≠ entry.node
        index := p.index.erase key }

/-- The victim and what is left, or `none` when nothing is tracked. -/
def evict (p : LruPolicy) : Option (Bytes × LruPolicy) :=
  match p.recency.getLast? with
  | none => none
  | some (_, victim) =>
      let p := { p with recency := p.recency.dropLast }
      match p.index.lookup victim with
      | none => some (victim, p)
      | some entry =>
          some (victim, { p with
            bytes := sizeSub p.bytes entry.bytes
            index := p.index.erase victim })

end LruPolicy

end KvStore
