import KvStore.Store.ShardedMap
import KvStore.Wal.Compactor

/-!
# The store

`src/store/store.cpp`. An operation that writes takes the script of what the
operating system does to its append, and `compact` what a rewrite came to. The calls
into the replicator are left to `KvStore.Repl`, where the leader is; the epoch lock and
the order in which concurrent writers reach the log and the map are in
`KvStore.Proof.Interleaving` and `KvStore.Proof.Epoch`.
-/

namespace KvStore

open Lib Wal Protocol

/-- `StoreConfig`. -/
structure StoreConfig extends MapConfig where
  /-- Empty for a store without a log. -/
  logPath : String := ""
  fsyncMode : FsyncMode := .always
  readOnly : Bool := false

/-- `log_` is set in the constructor, exactly when there is a path, and never reset. -/
def StoreConfig.logEnabled (cfg : StoreConfig) : Bool := decide (cfg.logPath ≠ "")

/-- The map, the log, and what is counted. -/
structure Store (cfg : StoreConfig) where
  map : ShardedMap cfg.toMapConfig := ShardedMap.init _
  /-- Looked at only when the log is enabled. -/
  log : WriteAheadLog := {}
  recovery : ReplayResult := {}
  recoveryDiscardedTransaction : Bool := false
  hits : Nat := 0
  misses : Nat := 0
  writes : Nat := 0
  nextTxnId : UInt64 := 1
  txnCommitted : Nat := 0
  txnRolledBack : Nat := 0

namespace Store

variable {cfg : StoreConfig}

/-- One more hit, or one more miss. -/
def count (st : Store cfg) (found : Bool) : Store cfg :=
  if found then { st with hits := st.hits + 1 } else { st with misses := st.misses + 1 }

/-- `Store::get`. -/
def get (st : Store cfg) (key : Bytes) : Store cfg × Option Bytes :=
  let r := st.map.get key
  (count { st with map := r.1 } r.2.isSome, r.2)

/-- `Store::getMany`. -/
def getMany (st : Store cfg) (keys : List Bytes) : Store cfg × List (Option Bytes) :=
  let r := st.map.getMany keys
  (r.2.foldl (fun st result => st.count result.isSome) { st with map := r.1 }, r.2)

/-- Append, then change the map: an exception of the log leaves the map alone. -/
def set (st : Store cfg) (key value : Bytes) (io : Io) : Store cfg × Except LogError Unit :=
  if cfg.logEnabled then
    match st.log.append cfg.fsyncMode (Command.set key value).serialize io with
    | (log, .error e) => ({ st with log := log }, .error e)
    | (log, .ok _) =>
        ({ st with log := log, map := st.map.set key value, writes := st.writes + 1 }, .ok ())
  else ({ st with map := st.map.set key value, writes := st.writes + 1 }, .ok ())

/-- `Store::del`. -/
def del (st : Store cfg) (key : Bytes) (io : Io) : Store cfg × Except LogError Bool :=
  if cfg.logEnabled then
    match st.log.append cfg.fsyncMode (Command.del key).serialize io with
    | (log, .error e) => ({ st with log := log }, .error e)
    | (log, .ok _) =>
        let r := st.map.del key
        ({ st with log := log, map := r.1, writes := st.writes + 1 }, .ok r.2)
  else
    let r := st.map.del key
    ({ st with map := r.1, writes := st.writes + 1 }, .ok r.2)

/-- The record of one mutation inside a transaction. -/
def mutationPayload (mutation : Mutation) : Bytes :=
  if mutation.erase then (Command.del mutation.key).serialize
  else (Command.set mutation.key mutation.value).serialize

/-- The records of one transaction, markers included. -/
def transactionPayloads (txnId : UInt64) (mutations : List Mutation) : List Bytes :=
  serializeBeginMarker txnId :: (mutations.map mutationPayload ++ [serializeCommitMarker txnId])

/-- A commit whose append throws returns `false` and leaves the map alone. -/
def commitTransaction (st : Store cfg) (txnId : UInt64) (mutations : List Mutation) (io : Io) :
    Store cfg × Bool :=
  if mutations = [] then ({ st with txnCommitted := st.txnCommitted + 1 }, true)
  else if cfg.logEnabled then
    match st.log.appendBatch cfg.fsyncMode (transactionPayloads txnId mutations) io with
    | (log, .error _) => ({ st with log := log }, false)
    | (log, .ok _) =>
        ({ st with
            log := log
            map := st.map.applyAtomically mutations
            writes := st.writes + mutations.length
            txnCommitted := st.txnCommitted + 1 }, true)
  else
    ({ st with
        map := st.map.applyAtomically mutations
        writes := st.writes + mutations.length
        txnCommitted := st.txnCommitted + 1 }, true)

/-! ## What transactions call -/

/-- `Store::nextTransactionId`. -/
def nextTransactionId (st : Store cfg) : Store cfg × UInt64 :=
  ({ st with nextTxnId := st.nextTxnId + 1 }, st.nextTxnId)

/-- `Store::noteRollback`. -/
def noteRollback (st : Store cfg) : Store cfg := { st with txnRolledBack := st.txnRolledBack + 1 }

/-! ## What replay and replication call -/

/-- `Store::applyFromLog`. -/
def applyFromLog (st : Store cfg) (key value : Bytes) : Store cfg :=
  { st with map := st.map.set key value }

/-- `Store::eraseFromLog`. -/
def eraseFromLog (st : Store cfg) (key : Bytes) : Store cfg :=
  { st with map := (st.map.del key).1 }

/-- `Store::applyTransactionFromLog`. -/
def applyTransactionFromLog (st : Store cfg) (mutations : List Mutation) : Store cfg :=
  if mutations = [] then { st with txnCommitted := st.txnCommitted + 1 }
  else
    { st with
      map := st.map.applyAtomically mutations
      writes := st.writes + mutations.length
      txnCommitted := st.txnCommitted + 1 }

/-- `Store::logOffset`. -/
def logOffset (st : Store cfg) : Nat := if cfg.logEnabled then st.log.offset else 0

/-- `Store::appendReplicatedRecords`. -/
def appendReplicatedRecords (st : Store cfg) (payloads : List Bytes) (io : Io) :
    Store cfg × Except LogError Nat :=
  if cfg.logEnabled then
    let r := st.log.appendBatch cfg.fsyncMode payloads io
    ({ st with log := r.1 }, r.2)
  else (st, .ok 0)

/-- The map is cleared first; an exception of `truncateAll` leaves it so. -/
def resetForFullResync (st : Store cfg) (truncateOk syncOk : Bool) :
    Store cfg × Except LogError Unit :=
  let st := { st with map := st.map.clear }
  if cfg.logEnabled then
    let r := st.log.truncateAll truncateOk syncOk
    ({ st with log := r.1 }, r.2)
  else (st, .ok ())

/-! ## Compaction -/

/-- What `compact` does with a rewrite that has returned. -/
def compact (st : Store cfg) (r : Compactor.Rewriting) : Store cfg × CompactionResult :=
  if cfg.logEnabled then
    (if r.result.ok then { st with log := st.log.reopenAfterCompaction r.path } else st, r.result)
  else (st, { error := "no write-ahead log configured" })

/-! ## What a call without errors does to the map -/

theorem set_clean {io : Io} (h : io.Clean) (st : Store cfg) (key value : Bytes) :
    (st.set key value io).2 = .ok () ∧ (st.set key value io).1.map = st.map.set key value := by
  obtain ⟨log, offset, hlog⟩ :=
    WriteAheadLog.append_clean h cfg.fsyncMode st.log (Command.set key value).serialize
  unfold set
  rw [hlog]
  split
  · exact ⟨rfl, rfl⟩
  · exact ⟨rfl, rfl⟩

theorem del_clean {io : Io} (h : io.Clean) (st : Store cfg) (key : Bytes) :
    (st.del key io).2 = .ok (st.map.del key).2 ∧ (st.del key io).1.map = (st.map.del key).1 := by
  obtain ⟨log, offset, hlog⟩ :=
    WriteAheadLog.append_clean h cfg.fsyncMode st.log (Command.del key).serialize
  unfold del
  rw [hlog]
  split
  · exact ⟨rfl, rfl⟩
  · exact ⟨rfl, rfl⟩

theorem commitTransaction_clean {io : Io} (h : io.Clean) (st : Store cfg) (txnId : UInt64)
    (mutations : List Mutation) :
    (st.commitTransaction txnId mutations io).2 = true
      ∧ (st.commitTransaction txnId mutations io).1.map = st.map.applyAtomically mutations := by
  obtain ⟨log, offset, hlog⟩ :=
    WriteAheadLog.appendBatch_clean h cfg.fsyncMode st.log (transactionPayloads txnId mutations)
  unfold commitTransaction
  rw [hlog]
  split
  · rename_i hnil
    subst hnil
    exact ⟨rfl, rfl⟩
  · split
    · exact ⟨rfl, rfl⟩
    · exact ⟨rfl, rfl⟩

/-! ## What reading leaves -/

@[simp] theorem count_map (st : Store cfg) (found : Bool) : (st.count found).map = st.map := by
  cases found <;> rfl

@[simp] theorem count_log (st : Store cfg) (found : Bool) : (st.count found).log = st.log := by
  cases found <;> rfl

theorem foldl_count (results : List (Option Bytes)) (st : Store cfg) :
    (results.foldl (fun st result => st.count result.isSome) st).map = st.map
      ∧ (results.foldl (fun st result => st.count result.isSome) st).log = st.log := by
  induction results generalizing st with
  | nil => exact ⟨rfl, rfl⟩
  | cons result results ih =>
      obtain ⟨h1, h2⟩ := ih (st.count result.isSome)
      exact ⟨h1.trans (count_map st _), h2.trans (count_log st _)⟩

theorem get_store (st : Store cfg) (key : Bytes) :
    (st.get key).1.map = (st.map.get key).1 ∧ (st.get key).1.log = st.log :=
  ⟨count_map _ _, count_log _ _⟩

theorem getMany_store (st : Store cfg) (keys : List Bytes) :
    (st.getMany keys).1.map = (st.map.getMany keys).1 ∧ (st.getMany keys).1.log = st.log :=
  foldl_count _ _

end Store

/-! ## Write operations as data -/

/-- One call of a client that writes. -/
inductive Op where
  | set (key value : Bytes)
  | del (key : Bytes)
  | commitTransaction (txnId : UInt64) (mutations : List Mutation)
  deriving DecidableEq, Repr

namespace Op

/-- The records the operation appends. -/
def payloads : Op → List Bytes
  | .set key value => [(Command.set key value).serialize]
  | .del key => [(Command.del key).serialize]
  | .commitTransaction txnId mutations =>
      if mutations = [] then [] else Store.transactionPayloads txnId mutations

/-- The bytes the operation appends. -/
def bytes (op : Op) : Bytes := op.payloads.flatMap frame

/--
Every record is within the limit that `parseRecord` accepts. A request line is at
most 64 KiB, so what comes from a client always is.
-/
def Fits (op : Op) : Prop := ∀ p ∈ op.payloads, p.length ≤ kMaxPayloadBytes

instance (op : Op) : Decidable op.Fits :=
  inferInstanceAs (Decidable (∀ p ∈ op.payloads, p.length ≤ kMaxPayloadBytes))

theorem fits_concat {ops : List Op} (hfits : ∀ op ∈ ops, op.Fits) {op : Op} (hfit : op.Fits) :
    ∀ o ∈ ops ++ [op], o.Fits :=
  List.forall_mem_append.mpr ⟨hfits, by simpa using hfit⟩

/-- Between its markers, a transaction has the records of its mutations. -/
theorem Fits.mutationPayload {op : Op} (hfit : op.Fits) {txnId : UInt64} {mutations : List Mutation}
    (hpay : op.payloads = Store.transactionPayloads txnId mutations) :
    ∀ mutation ∈ mutations, (Store.mutationPayload mutation).length ≤ kMaxPayloadBytes := by
  intro mutation hm
  refine hfit _ ?_
  rw [hpay, Store.transactionPayloads]
  exact List.mem_cons_of_mem _ (List.mem_append_left _ (List.mem_map_of_mem hm))

/-- What the operation is for: the keys it changes, in order, and to what. -/
def updates : Op → List (Update Bytes Bytes)
  | .set key value => [(key, some value)]
  | .del key => [(key, none)]
  | .commitTransaction _ mutations => mutations.map toUpdate

/-- The append of `Store::set`, `Store::del` and `Store::commitTransaction`. -/
def append (mode : FsyncMode) (log : WriteAheadLog) (op : Op) (io : Io) :
    WriteAheadLog × Except LogError Nat :=
  match op with
  | .set key value => log.append mode (Command.set key value).serialize io
  | .del key => log.append mode (Command.del key).serialize io
  | .commitTransaction txnId mutations =>
      log.appendBatch mode (Store.transactionPayloads txnId mutations) io

/-- What the operation does to the map in memory. -/
def applyTo {cfg : MapConfig} (op : Op) (m : ShardedMap cfg) : ShardedMap cfg :=
  match op with
  | .set key value => m.set key value
  | .del key => (m.del key).1
  | .commitTransaction _ mutations => m.applyAtomically mutations

end Op

/-- Run one operation; `true` when the caller is told that it succeeded. -/
def Store.perform {cfg : StoreConfig} (st : Store cfg) (op : Op) (io : Io) : Store cfg × Bool :=
  match op with
  | .set key value =>
      let r := st.set key value io
      (r.1, r.2.isOk)
  | .del key =>
      let r := st.del key io
      (r.1, r.2.isOk)
  | .commitTransaction txnId mutations => st.commitTransaction txnId mutations io

/-- Run operations one after another, without errors of the operating system. -/
def Store.performAll {cfg : StoreConfig} (st : Store cfg) (ops : List Op) : Store cfg :=
  ops.foldl (fun st op => (st.perform op {}).1) st

theorem applyTo_contents {cfg : MapConfig} (hoff : cfg.maxMemoryBytes = 0) (op : Op)
    (m : ShardedMap cfg) : (op.applyTo m).contents = runUpdates op.updates m.contents := by
  cases op with
  | set key value => exact ShardedMap.contents_set hoff m key value
  | del key => exact ShardedMap.contents_del m key
  | commitTransaction txnId mutations => exact ShardedMap.contents_applyAtomically hoff m mutations

/-- With eviction on, some of what was there may be gone as well. -/
theorem applyTo_within {cfg : MapConfig} (op : Op) (m : ShardedMap cfg) :
    Within (op.applyTo m).contents (runUpdates op.updates m.contents) := by
  cases op with
  | set key value => exact ShardedMap.set_within m key value
  | del key =>
      rw [show (Op.del key).applyTo m = (m.del key).1 from rfl, ShardedMap.contents_del]
      exact Within.refl _
  | commitTransaction txnId mutations => exact ShardedMap.applyAtomically_within m mutations

end KvStore
