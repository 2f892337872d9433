import KvStore.Repl.Control
import KvStore.Store.RecordApplier

/-!
# The follower

`src/repl/follower.cpp`. A read of the link is one call of `receive`, with the
bytes that were read and what the operating system does to the append it may lead
to. The counters behind `statsLine` are left out.
-/

namespace KvStore.Repl

open Lib Wal Protocol

/-- A transaction that is longer is given up. -/
def kMaxBufferedTransactionBytes : Nat := 64 * 1024 * 1024

/-- The buffer of one `read`. -/
def kReadChunkBytes : Nat := 64 * 1024

/-- A follower, with what it has of the stream and has not applied. -/
structure Follower (cfg : StoreConfig) where
  store : Store cfg := {}
  applier : RecordApplier := {}
  recvBuffer : Bytes := []
  pending : List Bytes := []
  pendingBytes : Nat := 0
  insideTransaction : Bool := false
  /-- What the state file next to the log holds; empty when there is none. -/
  savedToken : Bytes := []

/-- Why `consume` or `handshake` gave the link up. -/
inductive Drop where
  | corrupt
  | overLimit
  | appendFailed
  | rejected
  | offsetMismatch
  | handshake
  deriving DecidableEq, Repr

namespace Follower

variable {cfg : StoreConfig}

/-! ## Connecting -/

/-- The first thing `handshake` sends. -/
def request (f : Follower cfg) : Bytes := syncRequest f.savedToken f.store.logOffset

/--
`handshake` from the reply on. A full resync empties the store before anything
else; the two flags are the outcomes of the system calls of `truncateAll`.
-/
def onReply (f : Follower cfg) (line : Bytes) (truncateOk syncOk : Bool) :
    Follower cfg × Except Drop Unit :=
  match parseReply line with
  | none => (f, .error .handshake)
  | some .resume => (f, .ok ())
  | some (.full leaderToken) =>
      match f.store.resetForFullResync truncateOk syncOk with
      | (store, .error _) => ({ f with store := store }, .error .handshake)
      | (store, .ok _) =>
          ({ f with
              store := store
              applier := f.applier.abandonOpenTransaction
              savedToken := leaderToken }, .ok ())

/-- What `linkLoop` does behind every connection. -/
def disconnect (f : Follower cfg) : Follower cfg :=
  { f with
    recvBuffer := []
    pending := []
    pendingBytes := 0
    insideTransaction := false
    applier := f.applier.abandonOpenTransaction }

/-! ## Consuming the stream -/

/-- Take one record in. -/
def note (f : Follower cfg) (payload : Bytes) : Follower cfg :=
  { f with
    insideTransaction :=
      if (parseBeginMarker payload).isSome then true
      else if (parseCommitMarker payload).isSome then false
      else f.insideTransaction
    pendingBytes := f.pendingBytes + payload.length
    pending := f.pending ++ [payload] }

/-- The inner loop of `consume`, and the offset at which it stopped. -/
def consumeLoop (buffer : Bytes) : Nat → Nat → Follower cfg → Except Drop (Follower cfg × Nat)
  | 0, offset, f => .ok (f, offset)
  | fuel + 1, offset, f =>
      match parseRecord buffer offset with
      | .incomplete => .ok (f, offset)
      | .corrupt => .error .corrupt
      | .ok payload next =>
          if (f.note payload).pendingBytes > kMaxBufferedTransactionBytes then .error .overLimit
          else consumeLoop buffer fuel next (f.note payload)

/-- The loop of `flushPending`: the records in order, up to the first that is refused. -/
def applyAll : List Bytes → RecordApplier × Store cfg → (RecordApplier × Store cfg) × Bool
  | [], s => (s, true)
  | payload :: payloads, s =>
      match s.1.apply s.2 payload with
      | none => (s, false)
      | some s => applyAll payloads s

/-- The log first, then memory. -/
def flushPending (f : Follower cfg) (io : Io) : Follower cfg × Except Drop Unit :=
  match f.store.appendReplicatedRecords f.pending io with
  | (store, .error _) => ({ f with store := store }, .error .appendFailed)
  | (store, .ok newOffset) =>
      match applyAll f.pending (f.applier, store) with
      | ((applier, store), false) =>
        ({ f with applier := applier, store := store }, .error .rejected)
      | ((applier, store), true) =>
          let f := { f with applier := applier, store := store, pending := [], pendingBytes := 0 }
          if newOffset ≠ store.logOffset then (f, .error .offsetMismatch) else (f, .ok ())

/-- The batch that a read of `chunk` makes the follower write. -/
def batch (f : Follower cfg) (chunk : Bytes) : List Bytes :=
  match consumeLoop (f.recvBuffer ++ chunk) (f.recvBuffer ++ chunk).length 0 f with
  | .ok (f, _) => if f.insideTransaction = false then f.pending else []
  | .error _ => []

/--
One round of `consume` on the bytes of one `read`: `some` is the acknowledgement
to send.
-/
def receive (f : Follower cfg) (chunk : Bytes) (io : Io) :
    Follower cfg × Except Drop (Option Nat) :=
  let buffer := f.recvBuffer ++ chunk
  match consumeLoop buffer buffer.length 0 f with
  -- what the loop had gathered is cleared by `disconnect`, and so is not kept here
  | .error e => (f, .error e)
  | .ok (f, offset) =>
      let f := { f with recvBuffer := buffer.drop offset }
      if f.insideTransaction = false ∧ f.pending ≠ [] then
        match f.flushPending io with
        | (f, .error e) => (f, .error e)
        | (f, .ok _) => (f, .ok (some f.store.logOffset))
      else (f, .ok none)

end Follower

end KvStore.Repl
