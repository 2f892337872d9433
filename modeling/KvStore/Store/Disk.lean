import KvStore.Store.RecordApplier
import Mathlib.Data.Nat.Find

/-!
# A store on a disk

`src/wal/wal.cpp`, `src/wal/compactor.cpp` and `src/store/store.cpp`, with a disk below
them. What `write` takes is in the file for every process to see, and is on the disk once
a sync of the file has returned. The name of a file is on the disk once a sync of its
directory has returned; the constructor of the log, which creates the file, does not sync the
directory, so that only a compaction ever does. A process that is killed loses what it has in
memory; a power cut takes what is not on the disk as well.

There is one client. A step is a call into the operating system, so that a power cut may
come between any two of them, or in the middle of an append. The errors of `write`, and of
the sync behind an append, are not here; those that the source ignores are: of the
background sync, and of the sync of the directory.
-/

namespace KvStore.PowerCut

open Lib Wal Protocol

/-- How many of the operations lie within the first `n` bytes of what they append. -/
def fitting (ops : List Op) (n : Nat) : Nat :=
  Nat.findGreatest (fun i => ((ops.take i).flatMap Op.bytes).length ≤ n) ops.length

/-- A file that the path of the log names, or has named. -/
structure DiskFile where
  /-- There is no such file: the path has named nothing. -/
  absent : Bool := false
  bytes : Bytes := []
  /-- How much of it is on the disk. -/
  synced : Nat := 0
  /-- Ghost: the operations that it began with, which are those of a compaction. -/
  base : List Op := []
  /-- Ghost: the operations that had been carried out when it was begun. -/
  before : List Op := []
  /-- Ghost: the operations that were appended to it. -/
  since : List Op := []
  deriving DecidableEq, Repr

namespace DiskFile

/-- The operations that the file stands for. -/
def history (f : DiskFile) : List Op := f.before ++ f.since

/-- How long the operations are that the file began with. -/
def baseBytes (f : DiskFile) : Nat := (f.base.flatMap Op.bytes).length

/-- All of the file is put on the disk. -/
def sync (f : DiskFile) : DiskFile := { f with synced := f.bytes.length }

/-- What the path names before the log is created. -/
def nothing : DiskFile := { absent := true }

end DiskFile

/-- Where `Store::compact` is. -/
inductive Compaction where
  /-- There is none. -/
  | idle
  /-- Inside `Compactor::rewrite`, in front of its rename. -/
  | rewriting (entries : List (Bytes × Bytes)) (r : Compactor.Rewriting)
  /-- The directory is to be synced. -/
  | renamed (r : Compactor.Rewriting)
  /-- `rewrite` has returned. -/
  | returned (r : Compactor.Rewriting)
  deriving DecidableEq, Repr

/-- A store, the disk below it, and what may be found on the disk. -/
structure State (cfg : StoreConfig) where
  /-- The log is open on the file that the path names, except behind a rename, where it is
  open on the one before until it is opened again. -/
  store : Store cfg
  /-- The file that the path names. -/
  path : DiskFile := {}
  /-- What the path may name after a power cut, since no sync of the directory has returned
  after it was replaced; the last to be replaced comes first. -/
  older : List DiskFile := []
  compaction : Compaction := .idle
  /-- The client is inside this call. -/
  inFlight : Option Op := none
  /-- `WriteAheadLog` has been destroyed. -/
  closed : Bool := false
  /-- Ghost: the operations whose callers were told of them, with those in front of them. -/
  acked : List Op := []
  /-- Ghost: the operations that were in the log when it was last put on the disk under a name
  that was on the disk as well. -/
  promised : List Op := []

/-- What happens next. -/
inductive Act where
  /-- `Store::set`, `del` or `commitTransaction` is called. -/
  | call (op : Op)
  /-- It returns: the records are in the log, and on the disk if the mode is `Always`. -/
  | finish
  /-- `syncLoop` comes to its sync. -/
  | tick (ok : Bool)
  /-- The entries in the order `snapshot` lists them. -/
  | compact (entries : List (Bytes × Bytes))
  | answer (answer : Compactor.Answer)
  /-- Whether the directory could be opened, and synced. -/
  | syncDirectory (ok : Bool)
  /-- What `Store::compact` does behind `rewrite`. -/
  | reopen
  /-- The destructor of the log, and its sync. -/
  | close (ok : Bool)
  /-- The process is killed, when `torn` bytes of an append have been written; it starts again. -/
  | kill (torn : Nat)
  /-- The power is cut, and comes back: the path names the file it did, or one of the older
  ones, of which `keep` bytes are left. -/
  | powerCut (older : Option Nat) (torn keep : Nat)
  deriving DecidableEq, Repr

variable {cfg : StoreConfig}

namespace State

variable (s : State cfg)

/-- What has been written of the call that is in flight. -/
def torn (n : Nat) : Bytes := (s.inFlight.map fun op => op.bytes.take n).getD []

/-- The operations of the log, the one in flight included. -/
def logging : List Op := s.path.since ++ s.inFlight.toList

/-- The log is open on another file than the path names. -/
def replaced : Bool :=
  match s.compaction with
  | .renamed _ => true
  | .returned r => r.result.ok
  | _ => false

/-- The file at the path has been synced; its operations are promised if the path names it on
the disk. -/
def settle : State cfg := if s.older = [] then { s with promised := s.path.history } else s

/-- What a power cut leaves: a file, the operations it was being given, and the bytes left. -/
def left (older : Option Nat) (torn keep : Nat) : Option (DiskFile × List Op × Bytes) :=
  match older with
  | none =>
      if s.path.synced ≤ keep then some (s.path, s.logging, (s.path.bytes ++ s.torn torn).take keep)
      else none
  | some i =>
      match s.older[i]? with
      | none => none
      | some f => if f.synced ≤ keep then some (f, f.since, f.bytes.take keep) else none

end State

/-- What is left of a file when a store has been opened on it, if nothing of an uncommitted
transaction is: recovery has synced what it had to cut off. -/
def recovered (f : DiskFile) (ops : List Op) (st : Store cfg) (synced : Nat) : DiskFile :=
  { f with
    absent := false
    bytes := st.log.file
    synced := if st.recovery.truncated || st.recovery.sawUnknownRecord then st.log.file.length
      else min synced st.log.file.length
    since := ops.take (fitting ops (st.log.file.length - f.baseBytes)) }

/-- A step of the client, of the store or of the disk. -/
def step (s : State cfg) : Act → Option (State cfg)
  | .call op =>
      if s.closed = false ∧ s.inFlight = none ∧ s.compaction = .idle then
        some { s with inFlight := some op }
      else none
  | .finish =>
      match s.inFlight with
      | none => none
      | some op =>
          let store := (s.store.perform op {}).1
          let path := { s.path with bytes := store.log.file, since := s.path.since ++ [op] }
          let s := { s with store := store, inFlight := none, acked := path.history }
          if cfg.fsyncMode = .always then some (State.settle { s with path := path.sync })
          else some { s with path := path }
  | .tick ok =>
      if cfg.fsyncMode = .interval ∧ s.closed = false then
        if ok then
          if s.replaced then some { s with older := s.older.modifyHead DiskFile.sync }
          else some (State.settle { s with path := s.path.sync })
        else some s
      else none
  | .compact entries =>
      if s.closed = false ∧ s.inFlight = none ∧ s.compaction = .idle
          ∧ entries.Perm s.store.map.snapshot then
        some { s with
          compaction := .rewriting entries
            { path := s.path.bytes
              temp := none
              stage := .opening entries
              result := { bytesBefore := s.path.bytes.length } } }
      else none
  | .answer answer =>
      match s.compaction with
      | .rewriting entries r =>
          match Compactor.stepRewrite r answer with
          | none => none
          | some r =>
              if r.stage = .returned then
                if r.result.ok then
                  -- the file is given the path only when it is on the disk
                  some { s with
                    compaction := .renamed r
                    path :=
                      { bytes := r.path
                        synced := r.path.length
                        base := entries.map fun entry => .set entry.1 entry.2
                        before := s.path.history }
                    older := s.path :: s.older }
                else some { s with compaction := .returned r }
              else some { s with compaction := .rewriting entries r }
      | _ => none
  | .syncDirectory ok =>
      match s.compaction with
      | .renamed r =>
          let s := { s with compaction := .returned r }
          if ok then some (State.settle { s with older := [] }) else some s
      | _ => none
  | .reopen =>
      match s.compaction with
      | .returned r => some { s with store := (s.store.compact r).1, compaction := .idle }
      | _ => none
  | .close ok =>
      if s.closed = false ∧ s.inFlight = none ∧ s.compaction = .idle then
        let s := { s with closed := true }
        if ok then some (State.settle { s with path := s.path.sync }) else some s
      else none
  | .kill torn =>
      let st := Store.openOn cfg (s.path.bytes ++ s.torn torn)
      some { s with
        store := st
        path := recovered s.path s.logging st s.path.synced
        compaction := .idle
        inFlight := none
        closed := false }
  | .powerCut older torn keep =>
      match s.left older torn keep with
      | none => none
      | some (f, ops, file) =>
          let st := Store.openOn cfg file
          -- what has survived is on the disk
          let path := recovered f ops st st.log.file.length
          some
            { store := st
              path := path
              -- a log that was not there is created once more
              older := if f.absent then [f] else []
              acked := path.history
              promised := path.history }

/-- A store that was started with an empty log, of which the name is on the disk, or without a
log, which it has created. -/
def start (cfg : StoreConfig) (created : Bool) : State cfg :=
  { store := Store.openOn cfg [], older := if created then [.nothing] else [] }

/-- The runs of such a store. -/
def system (cfg : StoreConfig) : System (State cfg) Act where
  init s := ∃ created, s = start cfg created
  step := step

/-- What recovery finds ends with a whole operation. -/
def Whole (cfg : StoreConfig) (file : Bytes) : Prop :=
  (Store.openOn cfg file).recoveryDiscardedTransaction = false

instance (file : Bytes) : Decidable (Whole cfg file) :=
  inferInstanceAs (Decidable (_ = _))

/-- No call appends a record that is too long for recovery, and no process goes on behind a
transaction that was cut in two. -/
def Recoverable (s : State cfg) : Act → Prop
  | .call op => op.Fits
  | .kill torn => Whole cfg (s.path.bytes ++ s.torn torn)
  | .powerCut older torn keep => ∀ r ∈ s.left older torn keep, Whole cfg r.2.2
  | _ => True

instance (s : State cfg) : ∀ a, Decidable (Recoverable s a)
  | .call op => inferInstanceAs (Decidable op.Fits)
  | .kill torn => inferInstanceAs (Decidable (Whole cfg (s.path.bytes ++ s.torn torn)))
  | .powerCut older torn keep =>
      inferInstanceAs (Decidable (∀ r ∈ s.left older torn keep, Whole cfg r.2.2))
  | .finish | .tick _ | .compact _ | .answer _ | .syncDirectory _ | .reopen | .close _ =>
      inferInstanceAs (Decidable True)

end KvStore.PowerCut
