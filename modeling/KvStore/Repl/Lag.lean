import KvStore.Lib.Runs
import Mathlib.Algebra.GroupWithZero.Nat

/-!
# The lag of the followers

`src/repl/leader.cpp`: the queue in which the leader remembers when a record was
appended, so that it knows how long it took until some follower had it. `onAppend` puts
an entry at its end, and `noteAck` takes entries off its front.

The threads around it are those of `src/store/store.cpp`. A writer holds `walEpoch_`
shared from its append until `onAppend` has returned. Its end offset comes from the log,
which has a mutex of its own, so another writer may come in between the two. A compaction
holds `walEpoch_` alone, and with it the offsets start again from the length of the new
log. What `onLogReplaced` does to the sessions does not touch the queue.
-/

namespace KvStore.Repl

open Lib

/-- So many lags are kept. -/
def kMaxLagSamples : Nat := 2 ^ 16

/-- A record that was appended, and waits to be acknowledged. -/
structure PendingRecord where
  offset : Nat
  /-- In microseconds. -/
  time : Nat
  /-- Ghost: how often the log had been replaced when the record was appended. -/
  log : Nat
  deriving DecidableEq, Repr

/-- What is counted of the lags. -/
structure LagStats where
  count : Nat := 0
  maxUs : Nat := 0
  sumUs : Nat := 0
  samplesUs : List Nat := []
  deriving DecidableEq, Repr

/-- One record has arrived. -/
def LagStats.sample (stats : LagStats) (lagUs : Nat) : LagStats where
  count := stats.count + 1
  sumUs := stats.sumUs + lagUs
  maxUs := max stats.maxUs lagUs
  samplesUs :=
    if stats.samplesUs.length < kMaxLagSamples then stats.samplesUs ++ [lagUs % 2 ^ 32]
    else stats.samplesUs

/-- The records that wait, and what came of those before them. -/
structure LagQueue where
  /-- `sessions_.size()`. -/
  sessions : Nat := 0
  pending : List PendingRecord := []
  stats : LagStats := {}
  deriving DecidableEq, Repr

namespace LagQueue

/-- `onAppend`, up to the wait. -/
def onAppend (q : LagQueue) (endOffset now log : Nat) : LagQueue :=
  if q.sessions ≠ 0 then
    { q with pending := q.pending ++ [{ offset := endOffset, time := now, log := log }] }
  else q

/-- The loop of `noteAck`; a clock that went back counts for no lag. -/
def noteLoop (offset now : Nat) : List PendingRecord → LagStats → List PendingRecord × LagStats
  | [], stats => ([], stats)
  | record :: pending, stats =>
      if record.offset ≤ offset then noteLoop offset now pending (stats.sample (now - record.time))
      else (record :: pending, stats)

/-- `Leader::noteAck`: what was acknowledged is taken from the front. -/
def noteAck (q : LagQueue) (offset now : Nat) : LagQueue :=
  let r := noteLoop offset now q.pending q.stats
  { q with pending := r.1, stats := r.2 }

end LagQueue

/-! ## The threads around it -/

namespace Lag

/-- The queue, the log, and the writers on their way to the queue. -/
structure State where
  queue : LagQueue := {}
  /-- Where the log ends. -/
  logEnd : Nat
  /-- Ghost: how often the log has been replaced. -/
  log : Nat := 0
  /-- What the appends returned of the writers that have not called `onAppend` yet. -/
  appended : List Nat := []
  /-- How many writers are inside `onAppend`, behind their entry. -/
  waiting : Nat := 0
  deriving DecidableEq, Repr

/-- What happens next to the queue. -/
inductive Act where
  | register
  | reap
  /-- A record of `n + 1` bytes. -/
  | append (n : Nat)
  | onAppend (endOffset now : Nat)
  /-- A writer is through with `onAppend`, and so with `walEpoch_`. -/
  | leave
  | ack (offset now : Nat)
  /-- The new log has this length. -/
  | compact (length : Nat)
  deriving DecidableEq, Repr

/-- A step of a writer, of a session or of a compaction. -/
def step (s : State) : Act → Option State
  | .register => some { s with queue := { s.queue with sessions := s.queue.sessions + 1 } }
  | .reap =>
      if s.queue.sessions ≠ 0 then
        some { s with queue := { s.queue with sessions := s.queue.sessions - 1 } }
      else none
  | .append n =>
      some { s with logEnd := s.logEnd + (n + 1), appended := s.appended ++ [s.logEnd + (n + 1)] }
  | .onAppend endOffset now =>
      if endOffset ∈ s.appended then
        some { s with
          queue := s.queue.onAppend endOffset now s.log
          appended := s.appended.erase endOffset
          waiting := s.waiting + 1 }
      else none
  | .leave => if s.waiting ≠ 0 then some { s with waiting := s.waiting - 1 } else none
  | .ack offset now => some { s with queue := s.queue.noteAck offset now }
  | .compact length =>
      -- `walEpoch_` is free
      if s.appended = [] ∧ s.waiting = 0 then
        some { s with logEnd := length, log := s.log + 1 }
      else none

/-- A leader that was just started, with whatever log it has. -/
def system : System State Act where
  init s := ∃ logEnd, s = { logEnd := logEnd }
  step := step

end Lag

end KvStore.Repl
