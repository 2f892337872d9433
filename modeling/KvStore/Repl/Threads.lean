import KvStore.Repl.Cluster

/-!
# The threads of a leader

`src/repl/leader.cpp` once more, for what its threads wait for. A session's thread sleeps in
`poll`, and a byte in its pipe gets it up when there is something to ship. In sync mode a
client thread sleeps on `ackCv_`, and an acknowledgement gets it up. Neither of the two holds
`mutex_` while it sleeps; what it sleeps on is changed by threads that do not hold it either.

A step is what a thread does between two points at which another may come in between. So
`wakeSessions` and the predicate of the wait, which hold `mutex_` and go through `sessions_`,
are one step for each session. The accept thread reads the offset a follower starts from,
opens the log, and puts the session into `sessions_`, in three steps; it does not hold
`walEpoch_`, so a compaction may replace the log in between. Which log an offset and a file
belong to is kept as a ghost: logs are numbered, and a compaction that renames its file takes
the next number.

The bytes that are shipped, and the followers, are in `KvStore.Repl.Cluster`; the queue of
`noteAck` is in `KvStore.Repl.Lag`. What the system calls do is chosen from outside. The joins
of `stop` are left out.
-/

namespace KvStore.Repl.Threads

open Lib
open Cluster (ReplMode)

/-- The buffer with which `sessionLoop` empties its pipe. -/
def kScratchBytes : Nat := 64

/-! ## Sessions -/

/-- Where the thread of a session is. -/
inductive Place where
  /-- The session is in `sessions_`, and its thread is yet to be started. -/
  | unstarted
  /-- At the top of the loop. -/
  | top
  /-- Past the look at `stopping`, in front of `logOffset`. -/
  | looking
  /-- In the loop of `shipPending`, with the offset it read first. -/
  | shipping (target : Nat)
  /-- In `poll`. -/
  | polling
  /-- Reading from the pipe; there is something to read from the follower too, or not. -/
  | draining (acks : Bool)
  /-- In front of `drainAcks`. -/
  | reading
  /-- `drainAcks` has stored `acked`, and wants `mutex_` for `noteAck`. -/
  | noting
  /-- In front of `notify_all`. -/
  | notifying
  /-- Out of the loop, with `finished` set, in front of the last `notify_all`. -/
  | closing
  /-- The thread is at its end. -/
  | ended
  deriving DecidableEq, Repr

/-- The session's `finished`. -/
def Place.finished : Place → Bool
  | .closing | .ended => true
  | _ => false

/-- A session, with its thread and its pipe. -/
structure Served where
  session : Session
  place : Place := .unstarted
  /-- How many bytes are in the pipe. -/
  pipe : Nat := 0
  stopping : Bool := false
  /-- Ghost: the offset of the handshake. -/
  start : Nat
  /-- Ghost: the log on which the handshake read how far a follower may be. -/
  origin : Nat
  /-- Ghost: the log that is open as `logReader`. -/
  file : Nat
  /-- Ghost: the log the store had when the session came into `sessions_`. -/
  listed : Nat
  deriving DecidableEq, Repr

/-- No compaction came between the handshake and `sessions_`: the session has the log open that
the store had, and starts at its beginning or at an offset that was read on it. -/
def Served.OfOneLog (v : Served) : Prop := (v.start = 0 ∨ v.origin = v.file) ∧ v.file = v.listed

instance (v : Served) : Decidable v.OfOneLog := inferInstanceAs (Decidable (_ ∧ _))

/-- `pokeWakePipe`; a full pipe takes nothing, and nobody minds. -/
def Served.poke (capacity : Nat) (v : Served) : Served :=
  { v with pipe := min (v.pipe + 1) capacity }

/-- What `stop` and `onLogReplaced` do to one session. -/
def Served.halt (capacity : Nat) (v : Served) : Served := { v.poke capacity with stopping := true }

/-- Whether `drainAcks` finds an acknowledgement in what it has now. -/
def sawAck (s : Session) (bytes : Bytes) : Bool :=
  let buffer := s.ackBuffer ++ bytes
  (drainLines buffer.length buffer none).1.isSome

/-! ## Client threads -/

/-- Where a client thread is, in `onAppend` and in front of it. -/
inductive Writer (m : Nat) where
  /-- Not in the store, or in it and not yet past the append. -/
  | outside
  /-- It has appended, and holds `walEpoch_` shared. -/
  | appended (endOffset : Nat)
  /-- Behind the first section of `onAppend`. -/
  | noted (endOffset : Nat)
  /-- In `wakeSessions`, with the sessions it has still to poke. It holds `mutex_`. -/
  | waking (endOffset : Nat) (rest : List (Fin m))
  /-- Behind `wakeSessions`. -/
  | woken (endOffset : Nat)
  /-- In the predicate of the wait, with the sessions it has still to look at, and whether the
  time is up. It holds `mutex_`. -/
  | checking (endOffset : Nat) (rest : List (Fin m)) (late : Bool)
  /-- In `wait_for`. -/
  | asleep (endOffset : Nat)
  /-- Got up, and wants `mutex_`. -/
  | roused (endOffset : Nat) (late : Bool)
  deriving DecidableEq, Repr

/-- The thread holds `mutex_` from one step to the next. -/
def Writer.holds {m : Nat} : Writer m → Bool
  | .waking .. | .checking .. => true
  | _ => false

/-- What a notification does to a client thread. -/
def Writer.rouse {m : Nat} : Writer m → Writer m
  | .asleep endOffset => .roused endOffset false
  | x => x

/-- `Store::compact`, from the moment another file has the log's name. It holds `walEpoch_`
alone. -/
inductive Compaction (m : Nat) where
  /-- There is none, or it has not come so far. -/
  | idle
  /-- Behind the `rename` of a file of this length, in front of `reopenAfterCompaction`. -/
  | renamed (length : Nat)
  /-- The log is the new one. -/
  | reopened
  /-- In `onLogReplaced`, with the sessions it has still to stop. -/
  | stopping (rest : List (Fin m))
  deriving DecidableEq, Repr

/-- `Leader::stop`, up to the joins. -/
inductive Stop (m : Nat) where
  /-- It was not called. -/
  | never
  /-- `stopping_` is set, `notify_all` is to come. -/
  | flagged (rest : List (Fin m))
  /-- Past `notify_all`, with the sessions it has still to stop. -/
  | stopping (rest : List (Fin m))
  deriving DecidableEq, Repr

/-- The accept thread, with the follower it talks to. -/
inductive Accept where
  /-- It has none. -/
  | idle
  /-- Behind `performHandshake`, with where the session starts; `origin` is the log on which
  that was read. -/
  | greeted (start origin : Nat)
  /-- Behind the `open` of the log, which is `file`. -/
  | opened (start origin file : Nat)
  deriving DecidableEq, Repr

/-- A leader with `w` client threads, which has room for `m` sessions in its life. -/
structure State (m w : Nat) where
  logOffset : Nat
  /-- Ghost: the log that `log_` has open. -/
  log : Nat := 0
  /-- Ghost: the log that has the name. -/
  path : Nat := 0
  /-- `reopenAfterCompaction` failed, and `log_` has nothing open. -/
  closed : Bool := false
  sessions : Fin m → Option Served := fun _ => none
  /-- `sessions_`. -/
  registered : List (Fin m) := []
  accept : Accept := .idle
  writers : Fin w → Writer m := fun _ => .outside
  compaction : Compaction m := .idle
  stop : Stop m := .never
  ackTimeouts : Nat := 0
  syncDegraded : Nat := 0

/-- What a client thread does next. -/
inductive Write where
  /-- The append of `n + 1` bytes, by `Store::set`, `del` or `commitTransaction`. -/
  | append (n : Nat)
  | note
  | lock
  | poke
  | unlock
  /-- Past `wakeSessions`, up to the predicate. -/
  | wait
  | look
  | sleep
  /-- A wake-up without a reason, or by a notification that is of no use. -/
  | stir
  | expire
  | recheck
  deriving DecidableEq, Repr

/-- What a session's thread does next. -/
inductive Serve where
  | start
  | check
  | look
  /-- `pread` and `writeAll` of `n` bytes. -/
  | ship (n : Nat)
  | rest
  /-- `poll` returns; there is something to read from the follower, or not. -/
  | poll (acks : Bool)
  | drain
  | read (bytes : Bytes)
  /-- `EINTR`. -/
  | interrupt
  | note
  | notify
  /-- A system call fails, or the follower is gone. -/
  | fail
  | leave
  deriving DecidableEq, Repr

/-- Who does what next. -/
inductive Act (m w : Nat) where
  | write (t : Fin w) (a : Write)
  /-- An append of `n + 1` bytes of which the `fsync` fails: they are in the log and counted, and
  the client thread is thrown out of the store in front of `onAppend`. -/
  | appendUnsynced (t : Fin w) (n : Nat)
  | serve (k : Fin m) (a : Serve)
  /-- The accept thread has a follower that starts from this offset. -/
  | greet (start : Nat)
  /-- It opens the log. -/
  | openLog
  /-- It puts the session into `sessions_`. -/
  | register (k : Fin m)
  /-- It lets the follower go: something failed, or the leader is to stop. -/
  | refuse
  | reap
  /-- `Compactor::rewrite` gives a file of this length the log's name. -/
  | rename (length : Nat)
  | reopen
  /-- The `open` of `reopenAfterCompaction` fails, and it throws. -/
  | reopenFails
  | snapshot
  | haltReplaced
  | release
  | stop
  | stopNotify
  | haltStopped
  deriving DecidableEq, Repr

namespace State

variable {m w : Nat} (s : State m w)

/-- Somebody is inside `mutex_` for longer than a step. -/
def locked : Prop := ∃ t, (s.writers t).holds = true

instance : Decidable s.locked := inferInstanceAs (Decidable (∃ _, _))

/-- The accept thread is between `push_back` and the start of the thread. -/
def starting : Prop := ∃ k, (s.sessions k).any (fun v => decide (v.place = .unstarted)) = true

instance : Decidable s.starting := inferInstanceAs (Decidable (∃ _, _))

/-- The client thread is there now. -/
def setWriter (t : Fin w) (x : Writer m) : State m w :=
  { s with writers := Function.update s.writers t x }

/-- The session is that now. -/
def setSession (k : Fin m) (v : Served) : State m w :=
  { s with sessions := Function.update s.sessions k (some v) }

/-- Something is done to a session by another thread. -/
def modify (k : Fin m) (f : Served → Served) : State m w :=
  { s with sessions := Function.update s.sessions k ((s.sessions k).map f) }

/-- `sessions_.push_back`, of a session that starts there. -/
def enlist (k : Fin m) (start origin file : Nat) : State m w :=
  { s.setSession k
      { session := { sentOffset := start, acked := start }
        start := start
        origin := origin
        file := file
        listed := s.log } with
    registered := s.registered ++ [k]
    accept := .idle }

/-- `ackCv_.notify_all`. -/
def notifyAll : State m w := { s with writers := fun t => (s.writers t).rouse }

/-- Whether the session at `k` is finished. -/
def finished (k : Fin m) : Bool := (s.sessions k).any fun v => v.place.finished

variable {s}

theorem setWriter_self (t : Fin w) (x : Writer m) : (s.setWriter t x).writers t = x :=
  Function.update_self ..

theorem setWriter_of_ne {t t' : Fin w} (h : t' ≠ t) (x : Writer m) :
    (s.setWriter t x).writers t' = s.writers t' := Function.update_of_ne h ..

theorem setSession_self (k : Fin m) (v : Served) : (s.setSession k v).sessions k = some v :=
  Function.update_self ..

theorem setSession_of_ne {k k' : Fin m} (h : k' ≠ k) (v : Served) :
    (s.setSession k v).sessions k' = s.sessions k' := Function.update_of_ne h ..

theorem modify_self (k : Fin m) (f : Served → Served) :
    (s.modify k f).sessions k = (s.sessions k).map f := Function.update_self ..

theorem modify_of_ne {k k' : Fin m} (h : k' ≠ k) (f : Served → Served) :
    (s.modify k f).sessions k' = s.sessions k' := Function.update_of_ne h ..

end State

/-! ## Steps -/

section Steps

variable {m w : Nat} (mode : ReplMode) (capacity : Nat) (s : State m w)

/-- The predicate of the wait, from its beginning. -/
def enterCheck (t : Fin w) (endOffset : Nat) (late : Bool) : State m w :=
  match s.stop with
  | .never => s.setWriter t (.checking endOffset s.registered late)
  | _ => s.setWriter t .outside

/-- A step of a client thread. -/
def stepWrite (t : Fin w) : Write → Option (State m w)
  | .append n =>
      match s.writers t with
      | .outside =>
          if s.compaction = .idle ∧ s.closed = false then
            let endOffset := s.logOffset + (n + 1)
            some (State.setWriter { s with logOffset := endOffset } t (.appended endOffset))
          else none
      | _ => none
  | .note =>
      match s.writers t with
      | .appended endOffset => if s.locked then none else some (s.setWriter t (.noted endOffset))
      | _ => none
  | .lock =>
      match s.writers t with
      | .noted endOffset =>
          if s.locked then none else some (s.setWriter t (.waking endOffset s.registered))
      | _ => none
  | .poke =>
      match s.writers t with
      | .waking endOffset (k :: rest) =>
          some ((s.modify k (Served.poke capacity)).setWriter t (.waking endOffset rest))
      | _ => none
  | .unlock =>
      match s.writers t with
      | .waking endOffset [] => some (s.setWriter t (.woken endOffset))
      | _ => none
  | .wait =>
      match s.writers t with
      | .woken endOffset =>
          if mode ≠ .sync then some (s.setWriter t .outside)
          else if s.locked then none
          else if s.registered = [] then
            some (State.setWriter { s with syncDegraded := s.syncDegraded + 1 } t .outside)
          else some (enterCheck s t endOffset false)
      | _ => none
  | .look =>
      match s.writers t with
      | .checking endOffset (k :: rest) late =>
          if (s.sessions k).any (fun v => decide (endOffset ≤ v.session.acked)) then
            some (s.setWriter t .outside)
          else some (s.setWriter t (.checking endOffset rest late))
      | _ => none
  | .sleep =>
      match s.writers t with
      | .checking endOffset [] late =>
          if late then some (State.setWriter { s with ackTimeouts := s.ackTimeouts + 1 } t .outside)
          else some (s.setWriter t (.asleep endOffset))
      | _ => none
  | .stir =>
      match s.writers t with
      | .asleep endOffset => some (s.setWriter t (.roused endOffset false))
      | _ => none
  | .expire =>
      match s.writers t with
      | .asleep endOffset => some (s.setWriter t (.roused endOffset true))
      | _ => none
  | .recheck =>
      match s.writers t with
      | .roused endOffset late => if s.locked then none else some (enterCheck s t endOffset late)
      | _ => none

/-- Where a session's thread goes when it has to do with the pipe no more. -/
def afterPipe (acks : Bool) : Place := if acks then .reading else .top

/-- A step of a session's thread. -/
def stepServe (k : Fin m) (v : Served) : Serve → Option (State m w)
  | .start =>
      match v.place with
      | .unstarted => some (s.setSession k { v with place := .top })
      | _ => none
  | .check =>
      match v.place with
      | .top => some (s.setSession k { v with place := if v.stopping then .closing else .looking })
      | _ => none
  | .look =>
      match v.place with
      | .looking => some (s.setSession k { v with place := .shipping s.logOffset })
      | _ => none
  | .ship n =>
      match v.place with
      | .shipping target =>
          if v.session.sentOffset < target then
            if v.stopping then some (s.setSession k { v with place := .closing })
            else if 0 < n ∧ n ≤ min (target - v.session.sentOffset) kStreamChunkBytes then
              some (s.setSession k
                { v with session := { v.session with sentOffset := v.session.sentOffset + n } })
            else none
          else none
      | _ => none
  | .rest =>
      match v.place with
      | .shipping target =>
          if target ≤ v.session.sentOffset then some (s.setSession k { v with place := .polling })
          else none
      | _ => none
  | .poll acks =>
      match v.place with
      | .polling =>
          some (s.setSession k
            { v with place := if 0 < v.pipe then .draining acks else afterPipe acks })
      | _ => none
  | .drain =>
      match v.place with
      | .draining acks =>
          some (s.setSession k
            { v with
              pipe := v.pipe - kScratchBytes
              -- the loop goes on as long as the buffer was filled
              place := if v.pipe < kScratchBytes then afterPipe acks else .draining acks })
      | _ => none
  | .read bytes =>
      match v.place with
      | .reading =>
          if bytes ≠ [] ∧ bytes.length ≤ kAckReadBytes then
            let r := v.session.drainAcks bytes
            let place :=
              if r.2 then (if sawAck v.session bytes then Place.noting else .top) else .closing
            some (s.setSession k { v with session := r.1, place := place })
          else none
      | _ => none
  | .interrupt =>
      match v.place with
      | .polling | .reading => some (s.setSession k { v with place := .top })
      | _ => none
  | .note =>
      match v.place with
      | .noting => if s.locked then none else some (s.setSession k { v with place := .notifying })
      | _ => none
  | .notify =>
      match v.place with
      | .notifying => some (s.notifyAll.setSession k { v with place := .top })
      | _ => none
  | .fail =>
      match v.place with
      | .shipping _ | .polling | .reading => some (s.setSession k { v with place := .closing })
      | _ => none
  | .leave =>
      match v.place with
      | .closing => some (s.notifyAll.setSession k { v with place := .ended })
      | _ => none

/-- A step of one of the threads. -/
def step : Act m w → Option (State m w)
  | .write t a => stepWrite mode capacity s t a
  | .appendUnsynced t n =>
      if s.writers t = .outside ∧ s.compaction = .idle ∧ s.closed = false then
        some { s with logOffset := s.logOffset + (n + 1) }
      else none
  | .serve k a => (s.sessions k).bind fun v => stepServe s k v a
  | .greet start =>
      -- `SYNC` with an offset the log does not have is answered with a full resync
      if s.accept = .idle ∧ ¬ s.starting ∧ start ≤ s.logOffset then
        some { s with accept := .greeted start s.log }
      else none
  | .openLog =>
      match s.accept with
      | .greeted start origin => some { s with accept := .opened start origin s.path }
      | _ => none
  | .register k =>
      match s.accept with
      | .opened start origin file =>
          if s.locked ∨ s.stop ≠ .never ∨ s.sessions k ≠ none then none
          else some (s.enlist k start origin file)
      | _ => none
  | .refuse => if s.accept = .idle then none else some { s with accept := .idle }
  | .reap =>
      -- the notification behind it is a wake-up of no use
      if s.locked ∨ s.accept ≠ .idle ∨ s.starting then none
      else some { s with registered := s.registered.filter fun k => !s.finished k }
  | .rename length =>
      if s.compaction = .idle ∧ ∀ t, s.writers t = .outside then
        some { s with path := s.path + 1, compaction := .renamed length }
      else none
  | .reopen =>
      match s.compaction with
      | .renamed length =>
          some { s with
            logOffset := length
            log := s.path
            closed := false
            compaction := .reopened }
      | _ => none
  | .reopenFails =>
      match s.compaction with
      | .renamed _ => some { s with closed := true, compaction := .idle }
      | _ => none
  | .snapshot =>
      match s.compaction with
      | .reopened =>
          if s.locked then none else some { s with compaction := .stopping s.registered }
      | _ => none
  | .haltReplaced =>
      match s.compaction with
      | .stopping (k :: rest) =>
          some { s.modify k (Served.halt capacity) with compaction := .stopping rest }
      | _ => none
  | .release =>
      match s.compaction with
      | .stopping [] => some { s with compaction := .idle }
      | _ => none
  | .stop =>
      if s.locked ∨ s.stop ≠ .never then none else some { s with stop := .flagged s.registered }
  | .stopNotify =>
      match s.stop with
      | .flagged rest => some { s.notifyAll with stop := .stopping rest }
      | _ => none
  | .haltStopped =>
      match s.stop with
      | .stopping (k :: rest) =>
          some { s.modify k (Served.halt capacity) with stop := .stopping rest }
      | _ => none

end Steps

/-- A leader that was just started, with whatever log it has. -/
def system (m w : Nat) (mode : ReplMode) (capacity : Nat) : System (State m w) (Act m w) where
  init s := ∃ logOffset, s = { logOffset := logOffset }
  step := step mode capacity

end KvStore.Repl.Threads
