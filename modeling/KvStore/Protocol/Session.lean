import KvStore.Protocol.Parser
import KvStore.Txn.Transaction

/-!
# Sessions

`src/protocol/session.cpp`. What the rest of the world does during one call of
`handleLine` is an argument: the system calls of an append, the outcome of a rewrite
of the log, and the line of the replicator in `STATS`. An exception of the log goes
through `handleLine` and becomes its result.
-/

namespace KvStore

open Lib Wal Protocol Txn
open Repl (ascii)

/-- `replicator` is the line of the replicator, if there is one. -/
def Store.statsLine {cfg : StoreConfig} (st : Store cfg) (replicator : Option Bytes) : Bytes :=
  ascii "hits=" ++ toDecimal st.hits
    ++ ascii " misses=" ++ toDecimal st.misses
    ++ ascii " writes=" ++ toDecimal st.writes
    ++ ascii " evictions=" ++ toDecimal st.map.evictions
    ++ ascii " keys=" ++ toDecimal st.map.size
    ++ ascii " bytes=" ++ toDecimal st.map.bytesUsed
    ++ ascii " limit=" ++ toDecimal cfg.maxMemoryBytes
    ++ ascii " shards=" ++ toDecimal cfg.shards
    ++ ascii " lock=" ++ ascii (lockModeName cfg.lockMode)
    ++ ascii " txn_commits=" ++ toDecimal st.txnCommitted
    ++ ascii " txn_rollbacks=" ++ toDecimal st.txnRolledBack
    ++ (if cfg.logEnabled then
          ascii " log=" ++ ascii (fsyncModeName cfg.fsyncMode)
            ++ ascii " log_appends=" ++ toDecimal st.log.appends
            ++ ascii " log_syncs=" ++ toDecimal st.log.syncs
            ++ ascii " log_bytes=" ++ toDecimal st.log.bytesWritten
            ++ ascii " recovered=" ++ toDecimal st.recovery.recordsApplied
        else ascii " log=off")
    ++ (match replicator with
        | some line => ascii " " ++ line
        | none => ascii " repl=off")

namespace Protocol

variable {cfg : StoreConfig}

/-- What the rest of the world does during a call. -/
structure World where
  io : Io := {}
  /-- What the rewrite of a compaction comes to. -/
  rewriting : Compactor.Rewriting := { path := [], temp := none, stage := .returned, result := {} }
  replicator : Option Bytes := none

/-- A session, with its transaction if there is one. -/
structure Session where
  transaction : Option Transaction := none

/-- What a call of `handleLine` leaves, and its result. -/
structure Handled (cfg : StoreConfig) where
  session : Session
  store : Store cfg
  reply : Except LogError Bytes
  quit : Bool := false

namespace Session

/-- `Set` and `Del`: into the transaction, or into the store. -/
def write (s : Session) (st : Store cfg) (inside : Transaction → Transaction)
    (outside : Store cfg × Except LogError Unit) : Handled cfg :=
  match s.transaction with
  | some t =>
      { session := { transaction := some (inside t) }, store := st, reply := .ok (ascii "+OK\n") }
  | none => { session := s, store := outside.1, reply := outside.2.map fun _ => ascii "+OK\n" }

/-- The reply to `Get`. -/
def valueReply : Option Bytes → Bytes
  | none => ascii "$nil\n"
  | some value => ascii "$" ++ value ++ ascii "\n"

/-- `Session::handleLine`. -/
def handleLine (s : Session) (st : Store cfg) (line : Bytes) (w : World) : Handled cfg :=
  let cmd := parse line
  if cfg.readOnly ∧ (cmd.type = .set ∨ cmd.type = .del) then
    { session := s
      store := st
      reply := .ok (ascii "-ERR READONLY this node is a replica; write to the leader\n") }
  else if cfg.readOnly ∧ cmd.type = .compact then
    { session := s
      store := st
      reply := .ok (ascii "-ERR READONLY a replica must not compact its log\n") }
  else
    match cmd.type with
    | .set => s.write st (·.set cmd.key cmd.value) (st.set cmd.key cmd.value w.io)
    | .get =>
        let r := match s.transaction with
          | some t => t.get st cmd.key
          | none => st.get cmd.key
        { session := s
          store := r.1
          reply := .ok (valueReply r.2) }
    | .del =>
        let r := st.del cmd.key w.io
        s.write st (·.del cmd.key) (r.1, r.2.map fun _ => ())
    | .stats =>
        { session := s
          store := st
          reply := .ok (ascii "$" ++ st.statsLine w.replicator ++ ascii "\n") }
    | .compact =>
        let r := st.compact w.rewriting
        { session := s
          store := r.1
          reply := .ok
            (if r.2.ok then
              ascii "$records=" ++ toDecimal r.2.recordsWritten
                ++ ascii " bytes_before=" ++ toDecimal r.2.bytesBefore
                ++ ascii " bytes_after=" ++ toDecimal r.2.bytesAfter ++ ascii "\n"
            else ascii "-ERR compaction failed: " ++ ascii r.2.error ++ ascii "\n") }
    | .begin =>
        match s.transaction with
        | some _ =>
            { session := s, store := st, reply := .ok (ascii "-ERR already in a transaction\n") }
        | none =>
            let r := Transaction.make st
            { session := { transaction := some r.2 }, store := r.1, reply := .ok (ascii "+OK\n") }
    | .commit =>
        match s.transaction with
        | none =>
            { session := s, store := st, reply := .ok (ascii "-ERR no transaction in progress\n") }
        | some t =>
            let operations := t.pendingOperations
            match t.commit st w.io with
            | (st, t, false) =>
                { session := { transaction := some t }
                  store := st
                  reply := .ok (ascii "-ERR commit failed; transaction still open\n") }
            | (st, t, true) =>
                { session := {}
                  store := t.destroy st
                  reply := .ok (ascii "$committed=" ++ toDecimal operations ++ ascii "\n") }
    | .rollback =>
        match s.transaction with
        | none =>
            { session := s, store := st, reply := .ok (ascii "-ERR no transaction in progress\n") }
        | some t =>
            let discarded := t.pendingOperations
            let r := t.rollback st
            { session := {}
              store := r.2.destroy r.1
              reply := .ok (ascii "$rolled_back=" ++ toDecimal discarded ++ ascii "\n") }
    | .quit => { session := s, store := st, reply := .ok (ascii "+OK\n"), quit := true }
    | .invalid =>
        { session := s, store := st, reply := .ok (ascii "-ERR " ++ cmd.error ++ ascii "\n") }

/-- The destructor: a transaction that is still open goes with its session. -/
def destroy (s : Session) (st : Store cfg) : Store cfg :=
  match s.transaction with
  | some t => t.destroy st
  | none => st

end Session

end Protocol

end KvStore
