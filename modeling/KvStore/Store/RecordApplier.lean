import KvStore.Store.Store

/-!
# Applying log records

`src/store/record_applier.cpp`, and the half of `src/store/store.cpp` that uses
it: opening a store. The same state machine serves recovery and replication.
-/

namespace KvStore

open Lib Wal Protocol

/-- What applies the records of a log, with the transaction it is inside of. -/
structure RecordApplier where
  pending : List Mutation := []
  insideTransaction : Bool := false
  openTxnId : UInt64 := 0
  recordsApplied : Nat := 0
  transactionsApplied : Nat := 0
  deriving DecidableEq, Repr

variable {cfg : StoreConfig}

/-- `Command::apply`, by way of the store. -/
def applyCommand (st : Store cfg) : Command → Store cfg
  | .set key value => st.applyFromLog key value
  | .del key => st.eraseFromLog key

namespace RecordApplier

/-- `none` where the source returns `false`; a refused record changes nothing. -/
def apply (a : RecordApplier) (st : Store cfg) (payload : Bytes) :
    Option (RecordApplier × Store cfg) :=
  match parseBeginMarker payload with
  | some txnId =>
      if a.insideTransaction then none
      else
        some ({ a with
          insideTransaction := true
          openTxnId := txnId
          pending := []
          recordsApplied := a.recordsApplied + 1 }, st)
  | none =>
      match parseCommitMarker payload with
      | some txnId =>
          if !a.insideTransaction || decide (txnId ≠ a.openTxnId) then none
          else
            some ({ a with
              pending := []
              insideTransaction := false
              transactionsApplied := a.transactionsApplied + 1
              recordsApplied := a.recordsApplied + 1 }, st.applyTransactionFromLog a.pending)
      | none =>
          match deserializeCommand payload with
          | none => none
          | some command =>
              if a.insideTransaction then
                some ({ a with
                  pending := a.pending ++ [command.toMutation]
                  recordsApplied := a.recordsApplied + 1 }, st)
              else some ({ a with recordsApplied := a.recordsApplied + 1 }, applyCommand st command)

/-- `RecordApplier::abandonOpenTransaction`. -/
def abandonOpenTransaction (a : RecordApplier) : RecordApplier :=
  { a with pending := [], insideTransaction := false, openTxnId := 0 }

/-- The callback that recovery and replication run. -/
def onRecord (s : RecordApplier × Store cfg) (payload : Bytes) :
    Option (RecordApplier × Store cfg) := s.1.apply s.2 payload

end RecordApplier

/-! ## Opening a store -/

/-- `recoverFromLog`, on the bytes found at the path. -/
def recoverFromLog (cfg : StoreConfig) (file : Bytes) : Replayed (RecordApplier × Store cfg) :=
  replay RecordApplier.onRecord ({}, {}) file

/-- The constructor. Without a path there is nothing to recover. -/
def Store.openOn (cfg : StoreConfig) (file : Bytes) : Store cfg :=
  if cfg.logEnabled then
    let r := recoverFromLog cfg file
    { r.state.2 with
      log := WriteAheadLog.openAt r.file
      recovery := r.result
      recoveryDiscardedTransaction := r.state.1.insideTransaction }
  else {}

end KvStore
