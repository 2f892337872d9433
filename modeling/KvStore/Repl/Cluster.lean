import KvStore.Repl.Link
import KvStore.Wal.Compactor

/-!
# A leader among its followers

`src/repl/leader.cpp` as a whole, with what it runs beside: client threads inside
`Store::set`, `del` and `commitTransaction`, `Store::compact`, the thread that
accepts followers, and one thread for each session. A step is what a thread does
between two points at which another may come in between. The followers are those
of `KvStore.Repl.Follower`, and any of them may lose its link or be killed.

The log has a path, and a compaction puts another file there. So the state has
every file the path has named, and a session says which of them it reads. Whether
a file is the one a follower knows is decided by its inode number alone.

Errors of the operating system on the log are left out (they are the subject of
`KvStore.Proof.FailedAppend`); a power cut, which may lose what was not synced, is
not.
-/

namespace KvStore.Repl.Cluster

open Lib Wal Protocol

/-- `ReplMode`. -/
inductive ReplMode where
  | async
  | sync
  deriving DecidableEq, Repr

/-! ## The files -/

/-- A file that the path of the log names, or has named. -/
structure LogFile where
  ino : Nat
  bytes : Bytes
  /-- How much of it a power cut leaves for certain. -/
  synced : Nat
  /-- Ghost: how much of it sessions have read for their followers. -/
  shipped : Nat := 0
  deriving DecidableEq, Repr

/-- `Store::replicationToken`, when the path names this file. -/
def LogFile.token (dev : Nat) (file : LogFile) : Bytes := replicationToken dev file.ino

/-- The files, and the log's idea of where it ends. -/
structure Disk where
  /-- The files the path has named before, oldest first. -/
  old : List LogFile := []
  /-- The file the path names. -/
  log : LogFile
  offset : Nat
  /-- The path has been given a new file, and the log is still open on the one before. -/
  replaced : Bool := false
  deriving DecidableEq, Repr

namespace Disk

/-- All the files, the one that has the name last. -/
def files (d : Disk) : List LogFile := d.old ++ [d.log]

/-- What `Store::replicationToken` says of the log. -/
def token (dev : Nat) (d : Disk) : Bytes := d.log.token dev

/-- The log, as an append finds it. -/
def wal (d : Disk) : WriteAheadLog := { file := d.log.bytes, offset := d.offset }

/-- What an append leaves. -/
def append (mode : FsyncMode) (d : Disk) (wal : WriteAheadLog) : Disk :=
  let synced := if mode = .always then wal.file.length else d.log.synced
  { d with log := { d.log with bytes := wal.file, synced := synced }, offset := wal.offset }

/-- The thread of `FsyncMode::Interval`. -/
def sync (d : Disk) : Disk := { d with log := { d.log with synced := d.log.bytes.length } }

/-- The `rename` of `Compactor::rewrite`, behind its `fsync`. -/
def rename (d : Disk) (ino : Nat) (bytes : Bytes) : Disk :=
  { d with
    old := d.old ++ [d.log]
    log := { ino := ino, bytes := bytes, synced := bytes.length }
    replaced := true }

/-- `reopenAfterCompaction`. -/
def reopen (d : Disk) : Disk := { d with offset := d.log.bytes.length, replaced := false }

/-- Ghost: a session has read the file up to `sent`. -/
def noteShipped (d : Disk) (file sent : Nat) : Disk :=
  if file = d.old.length then { d with log := { d.log with shipped := max d.log.shipped sent } }
  else d

/-- A new process: recovery works on the file that the path names, in place. -/
def restart {cfg : StoreConfig} (d : Disk) (st : Store cfg) : Disk :=
  let cut := st.recovery.truncated || st.recovery.sawUnknownRecord
  let synced := if cut then st.log.file.length else min d.log.synced st.log.file.length
  { d with
    log := { d.log with bytes := st.log.file, synced := synced }
    offset := st.log.offset
    replaced := false }

end Disk

/-! ## A connection, seen from the leader -/

/-- Where the thread of a session is. -/
inductive Loop where
  | polling
  /-- In the loop of `shipPending`, with the offset it read first. -/
  | shipping (target : Nat)
  /-- In that loop, and past the look at `stopping`. -/
  | sending (target : Nat)
  deriving DecidableEq, Repr

/-- A session with its file open. -/
structure Served where
  /-- The token in the reply. -/
  token : Bytes
  session : Session
  /-- Which of the files it has open. -/
  file : Nat
  loop : Loop := .polling
  stopping : Bool := false
  finished : Bool := false
  /-- Ghost: where it started, and what it has shipped since. -/
  start : Nat
  stream : Bytes := []
  deriving DecidableEq, Repr

/-- How far the leader has come with a connection. -/
inductive Stage where
  | queued
  /-- `performHandshake` has read the request and the token of the log. -/
  | identified (leaderToken token : Bytes) (requested : Nat)
  /-- It has read the offset, and replied. -/
  | replied (leaderToken : Bytes) (session : Session)
  /-- The log is open for reading; the session is not in `sessions_` yet. -/
  | opened (served : Served)
  /-- In `sessions_`. -/
  | serving (served : Served)
  | closed
  deriving DecidableEq, Repr

/-- A connection between a follower and its leader. -/
structure Socket (n : Nat) where
  peer : Fin n
  toLeader : Bytes
  toFollower : Bytes := []
  /-- The follower has read the reply. -/
  greeted : Bool := false
  stage : Stage := .queued
  /-- Ghost: the token and the log of the follower when it asked. -/
  asked : Bytes × Bytes
  deriving DecidableEq, Repr

/-- A step of the accept thread, or of a session's own, on one connection. -/
inductive Serve where
  | identify
  | reply
  /-- The connection, the pipe or the `open` fails before the session is registered. -/
  | refuse
  | openLog
  | register
  | look
  | check
  | ship (n : Nat)
  | rest
  | drain (n : Nat)
  | finish
  deriving DecidableEq, Repr

namespace Socket

variable {n : Nat}

/-- The session, once it is in `sessions_`. -/
def served (c : Socket n) : Option Served :=
  match c.stage with
  | .serving v => some v
  | _ => none

/-- The session, while its thread runs. -/
def running (c : Socket n) : Option Served := c.served.filter fun v => !v.finished

/-- The accept thread is busy with the connection. -/
def accepting (c : Socket n) : Bool :=
  match c.stage with
  | .identified .. | .replied .. | .opened .. => true
  | _ => false

/-- The token has been read, and the log not yet opened. -/
def between (c : Socket n) : Bool :=
  match c.stage with
  | .identified .. | .replied .. => true
  | _ => false

/-- The session holds a file with this inode number open. -/
def holds (d : Disk) (ino : Nat) (c : Socket n) : Bool :=
  match c.stage with
  | .opened v | .serving v => (d.files[v.file]?).any fun file => decide (file.ino = ino)
  | _ => false

/-- `stopping`, when the connection has got as far as a session. -/
def stop (c : Socket n) : Socket n :=
  match c.stage with
  | .serving v => { c with stage := .serving { v with stopping := true } }
  | _ => c

/-- What `reapFinishedSessions` does to one session. -/
def reap (c : Socket n) : Socket n :=
  match c.stage with
  | .serving v => if v.finished then { c with stage := .closed } else c
  | _ => c

/-- A step of the leader's thread for a connection. -/
def serve (dev : Nat) (d : Disk) (c : Socket n) : Serve → Option (Socket n)
  | .identify =>
      match c.stage with
      | .queued =>
          match readLine [] c.toLeader with
          | .line line rest =>
              match parseSync line with
              | .error reply =>
                some { c with toLeader := rest, toFollower := reply, stage := .closed }
              | .ok (token, requested) =>
                  some
                    { c with
                      toLeader := rest, stage := .identified (d.token dev) token requested }
          | .tooLong => some { c with stage := .closed }
          | .incomplete => none
      | _ => none
  | .reply =>
      match c.stage with
      | .identified leaderToken token requested =>
          let r := answer token requested leaderToken d.offset
          some { c with
            toFollower := r.1
            stage := .replied leaderToken { sentOffset := r.2, acked := r.2 } }
      | _ => none
  | .refuse => if c.accepting then some { c with stage := .closed } else none
  | .openLog =>
      match c.stage with
      | .replied leaderToken session =>
          some { c with
            stage := .opened { token := leaderToken, session := session, file := d.old.length,
                               start := session.sentOffset } }
      | _ => none
  | .register =>
      match c.stage with
      | .opened v => some { c with stage := .serving v }
      | _ => none
  | .look =>
      match c.running with
      | some v =>
          match v.loop with
          | .polling => some { c with stage := .serving { v with loop := .shipping d.offset } }
          | _ => none
      | none => none
  | .check =>
      match c.running with
      | some v =>
          match v.loop with
          | .shipping target =>
              if v.session.sentOffset < target ∧ v.stopping = false then
                some { c with stage := .serving { v with loop := .sending target } }
              else none
          | _ => none
      | none => none
  | .ship n =>
      match c.running with
      | some v =>
          match v.loop, d.files[v.file]? with
          | .sending target, some file =>
              match v.session.shipChunk file.bytes target n with
              | some (session, bytes) =>
                  some { c with
                    toFollower := c.toFollower ++ bytes
                    stage := .serving { v with
                      session := session, loop := .shipping target, stream := v.stream ++ bytes } }
              | none => none
          | _, _ => none
      | none => none
  | .rest =>
      match c.running with
      | some v =>
          match v.loop with
          | .shipping target =>
              if target ≤ v.session.sentOffset then
                some { c with stage := .serving { v with loop := .polling } }
              else none
          | _ => none
      | none => none
  | .drain n =>
      match c.running with
      | some v =>
          match v.loop with
          | .polling =>
              let r := v.session.drainAcks (c.toLeader.take (min n kAckReadBytes))
              some { c with
                toLeader := c.toLeader.drop (min n kAckReadBytes)
                stage := .serving { v with session := r.1, finished := !r.2 } }
          | _ => none
      | none => none
  | .finish =>
      match c.running with
      | some v => some { c with stage := .serving { v with finished := true } }
      | none => none

/-- Ghost: what the files were read up to by this session. -/
def noteShipped (c : Socket n) (d : Disk) : Disk :=
  match c.stage with
  | .serving v => d.noteShipped v.file v.session.sentOffset
  | _ => d

end Socket

/-! ## Everyone else -/

/-- Where a thread is inside `Store::set`, `del` or `commitTransaction`. -/
inductive Writer where
  /-- Holds `walEpoch_` shared. -/
  | entered (op : Op)
  | appended (op : Op) (endOffset : Nat)
  | applied (op : Op) (endOffset : Nat)
  /-- In the wait of `onAppend`. -/
  | waiting (op : Op) (endOffset : Nat)
  deriving DecidableEq, Repr

/-- Where `Store::compact` is; it holds `walEpoch_` from the rename on. -/
inductive Compaction (m : Nat) where
  | idle
  | renamed
  | reopened
  /-- In `onLogReplaced`, with the sessions it has still to stop. -/
  | stopping (sessions : List (Fin m))
  deriving DecidableEq, Repr

/-- A follower, and its end of a connection. -/
structure Peer (cfg : StoreConfig) (m : Nat) where
  follower : Follower cfg := {}
  link : Option (Fin m) := none

/-- A leader with `n` followers, which have `m` connections to use up, and `w` client threads. -/
structure State (lcfg fcfg : StoreConfig) (n m w : Nat) where
  map : ShardedMap lcfg.toMapConfig
  disk : Disk
  compaction : Compaction m := .idle
  writers : Fin w → Option Writer := fun _ => none
  sockets : Fin m → Option (Socket n) := fun _ => none
  peers : Fin n → Peer fcfg m := fun _ => {}
  ackTimeouts : Nat := 0
  syncDegraded : Nat := 0

/-- What a client thread of the leader does next. -/
inductive Write where
  | enter (op : Op)
  | append
  | apply
  /-- `onAppend`, up to its wait. -/
  | announce
  /-- The predicate of `onAppend` holds. -/
  | confirm
  /-- The wait of `onAppend` runs out. -/
  | expire
  deriving DecidableEq, Repr

/-- What a compaction of the leader does next. -/
inductive Compact where
  /-- Everything in `Store::compact` up to the rename, which gives the new log an inode number. -/
  | rename (ino : Nat)
  | reopen
  /-- `onLogReplaced` copies `sessions_`. -/
  | snapshot
  /-- It stops one of them. -/
  | stop
  | release
  deriving DecidableEq, Repr

/-- What a follower does next. -/
inductive Follow (m : Nat) where
  | connect (k : Fin m)
  | greet
  | read (count : Nat)
  | hangUp
  /-- Killed as it writes what it got from reading at most `count` bytes more, of which `part`
  bytes reach its log; `keep` bytes of the log are left. It is then started again. -/
  | kill (count part keep : Nat)
  deriving DecidableEq, Repr

/-- Who does what next. -/
inductive Act (n m w : Nat) where
  | write (t : Fin w) (a : Write)
  | compact (a : Compact)
  | sync
  | reap
  | serve (k : Fin m) (a : Serve)
  | follow (i : Fin n) (a : Follow m)
  /-- The leader is killed, or loses power, and is started again. A thread may have got some
  bytes of an append into the log; of the log, `keep` bytes are left. -/
  | crash (torn : Option (Fin w × Nat)) (keep : Nat)
  deriving DecidableEq, Repr

variable {lcfg fcfg : StoreConfig} {n m w : Nat}

namespace State

variable (s : State lcfg fcfg n m w)

/-- The accept thread is in the middle of `acceptLoop`. -/
def accepting : Prop := ∃ k, (s.sockets k).any Socket.accepting = true

/-- `sessions_`, by connection. A session whose thread has ended stays there until it is reaped. -/
def sessions (k : Fin m) : Option Served := (s.sockets k).bind Socket.served

/-- The predicate of `onAppend`. -/
def acknowledged (endOffset : Nat) : Prop :=
  ∃ k, (s.sessions k).any (fun v => decide (endOffset ≤ v.session.acked)) = true

/-- The inode number belongs to a file that exists. -/
def inUse (ino : Nat) : Prop :=
  ino = s.disk.log.ino ∨ ∃ k, (s.sockets k).any (·.holds s.disk ino) = true

instance : Decidable s.accepting := inferInstanceAs (Decidable (∃ _, _))

instance (endOffset : Nat) : Decidable (s.acknowledged endOffset) :=
  inferInstanceAs (Decidable (∃ _, _))

instance (ino : Nat) : Decidable (s.inUse ino) := inferInstanceAs (Decidable (_ ∨ _))

/-- The client thread is there now. -/
def setWriter (t : Fin w) (writer : Option Writer) : State lcfg fcfg n m w :=
  { s with writers := Function.update s.writers t writer }

/-- The connection is that now. -/
def setSocket (k : Fin m) (c : Socket n) : State lcfg fcfg n m w :=
  { s with sockets := Function.update s.sockets k (some c) }

/-- The follower is that now. -/
def setPeer (i : Fin n) (p : Peer fcfg m) : State lcfg fcfg n m w :=
  { s with peers := Function.update s.peers i p }

/-- The follower is off the connection. -/
def leave (i : Fin n) (f : Follower fcfg) : State lcfg fcfg n m w :=
  s.setPeer i { follower := f.disconnect }

end State

/-! ## Steps -/

section Steps

variable (dev : Nat) (mode : ReplMode) (s : State lcfg fcfg n m w)

/-- A step of a client thread. -/
def stepWrite (t : Fin w) : Write → Option (State lcfg fcfg n m w)
  | .enter op =>
      match s.writers t with
      | none =>
          if s.compaction = .idle ∧ op.payloads ≠ [] then some (s.setWriter t (some (.entered op)))
          else none
      | some _ => none
  | .append =>
      match s.writers t with
      | some (.entered op) =>
          match op.append lcfg.fsyncMode s.disk.wal {} with
          | (wal, .ok endOffset) =>
              some (State.setWriter { s with disk := s.disk.append lcfg.fsyncMode wal } t
                (some (.appended op endOffset)))
          | (_, .error _) => none
      | _ => none
  | .apply =>
      match s.writers t with
      | some (.appended op endOffset) =>
          some (State.setWriter { s with map := op.applyTo s.map } t (some (.applied op endOffset)))
      | _ => none
  | .announce =>
      match s.writers t with
      | some (.applied op endOffset) =>
          if mode ≠ .sync then some (s.setWriter t none)
          else if ∀ k, s.sessions k = none then
            some (State.setWriter { s with syncDegraded := s.syncDegraded + 1 } t none)
          else some (s.setWriter t (some (.waiting op endOffset)))
      | _ => none
  | .confirm =>
      match s.writers t with
      | some (.waiting _ endOffset) =>
          if s.acknowledged endOffset then some (s.setWriter t none) else none
      | _ => none
  | .expire =>
      match s.writers t with
      | some (.waiting _ _) =>
          some (State.setWriter { s with ackTimeouts := s.ackTimeouts + 1 } t none)
      | _ => none

/-- The exclusive lock is had when no writer is inside; it is kept until `release`. -/
def stepCompact : Compact → Option (State lcfg fcfg n m w)
  | .rename ino =>
      if s.compaction = .idle ∧ (∀ t, s.writers t = none) ∧ ¬ s.inUse ino then
        some { s with
          compaction := .renamed
          disk := s.disk.rename ino (Compactor.rewrite s.map.snapshot) }
      else none
  | .reopen =>
      match s.compaction with
      | .renamed => some { s with compaction := .reopened, disk := s.disk.reopen }
      | _ => none
  | .snapshot =>
      match s.compaction with
      | .reopened =>
          some { s with
            compaction := .stopping ((List.finRange m).filter fun k => (s.sessions k).isSome) }
      | _ => none
  | .stop =>
      match s.compaction with
      | .stopping (k :: ks) =>
          some { s with
            compaction := .stopping ks
            sockets := Function.update s.sockets k ((s.sockets k).map Socket.stop) }
      | _ => none
  | .release =>
      match s.compaction with
      | .stopping [] => some { s with compaction := .idle }
      | _ => none

/-- There is one accept thread: it begins with a connection when it is done with the last. -/
def stepServe (k : Fin m) (a : Serve) : Option (State lcfg fcfg n m w) :=
  match s.sockets k with
  | none => none
  | some c =>
      if a = .identify ∧ s.accepting then none
      else
        match c.serve dev s.disk a with
        | none => none
        | some c => some (State.setSocket { s with disk := c.noteShipped s.disk } k c)

/-- The bytes a follower gets when it reads at most `count`. -/
def incoming (link : Option (Fin m)) (count : Nat) : Bytes :=
  match link.bind s.sockets with
  | some c => if c.greeted then c.toFollower.take (min count kReadChunkBytes) else []
  | none => []

/-- The follower has got further on a connection, and says so. -/
def acknowledge (i : Fin n) (k : Fin m) (c : Socket n) (f : Follower fcfg) (offset : Nat) :
    State lcfg fcfg n m w :=
  (s.setPeer i { follower := f, link := some k }).setSocket k
    { c with toLeader := c.toLeader ++ ackLine offset }

/-- The log of a follower that is killed as it writes. -/
def killedFile (i : Fin n) (count part keep : Nat) : Bytes :=
  let f := (s.peers i).follower
  let written := (f.batch (incoming s (s.peers i).link count)).flatMap frame
  (f.store.log.file ++ written.take part).take keep

/-- A step of a follower. -/
def stepFollow (i : Fin n) : Follow m → Option (State lcfg fcfg n m w)
  | .connect k =>
      match (s.peers i).link, s.sockets k with
      | none, none =>
          let f := (s.peers i).follower
          some ((s.setPeer i { follower := f, link := some k }).setSocket k
            { peer := i, toLeader := f.request, asked := (f.savedToken, f.store.log.file) })
      | _, _ => none
  | .greet =>
      match (s.peers i).link with
      | none => none
      | some k =>
          match s.sockets k with
          | none => none
          | some c =>
              if c.greeted then none
              else
                match readLine [] c.toFollower with
                | .line line rest =>
                    match (s.peers i).follower.onReply line true true with
                    | (f, .ok _) =>
                        some (acknowledge s i k { c with toFollower := rest, greeted := true } f
                          f.store.logOffset)
                    | (f, .error _) => some (s.leave i f)
                | .tooLong => some (s.leave i (s.peers i).follower)
                | .incomplete => none
  | .read count =>
      match (s.peers i).link with
      | none => none
      | some k =>
          match s.sockets k with
          | none => none
          | some c =>
              let chunk := incoming s (some k) count
              if chunk = [] then none
              else
                let c := { c with toFollower := c.toFollower.drop chunk.length }
                match (s.peers i).follower.receive chunk {} with
                | (f, .ok none) =>
                    some ((s.setPeer i { follower := f, link := some k }).setSocket k c)
                | (f, .ok (some offset)) => some (acknowledge s i k c f offset)
                | (f, .error _) => some (s.leave i f)
  | .hangUp =>
      match (s.peers i).link with
      | none => none
      | some _ => some (s.leave i (s.peers i).follower)
  | .kill count part keep =>
      let file := killedFile s i count part keep
      some (s.setPeer i { follower := Link.restart (s.peers i).follower file })

/-- The bytes of an append that was cut short. -/
def tornBytes : Option (Fin w × Nat) → Bytes
  | some (t, k) =>
      match s.writers t with
      | some (.entered op) => op.bytes.take k
      | _ => []
  | none => []

/-- What recovery finds, after a crash that leaves `keep` bytes of the log. -/
def crashed (torn : Option (Fin w × Nat)) (keep : Nat) : Store lcfg :=
  Store.openOn lcfg ((s.disk.log.bytes ++ tornBytes s torn).take keep)

/-- A step of one of them. -/
def step : Act n m w → Option (State lcfg fcfg n m w)
  | .write t a => stepWrite mode s t a
  | .compact a => stepCompact s a
  | .sync => if s.disk.replaced then none else some { s with disk := s.disk.sync }
  | .reap =>
      if s.accepting then none
      else some { s with sockets := fun k => (s.sockets k).map Socket.reap }
  | .serve k a => stepServe dev s k a
  | .follow i a => stepFollow s i a
  | .crash torn keep =>
      if s.disk.log.synced ≤ keep then
        let st := crashed s torn keep
        some { s with
          map := st.map
          disk := s.disk.restart st
          compaction := .idle
          writers := fun _ => none
          sockets := fun k => (s.sockets k).map fun c => { c with stage := .closed } }
      else none

end Steps

/-- A leader that was started on `file`, whose followers know nothing yet. -/
def system (lcfg fcfg : StoreConfig) (n m w dev : Nat) (mode : ReplMode) (ino : Nat)
    (file : Bytes) :
    System (State lcfg fcfg n m w) (Act n m w) where
  init s :=
    let st := Store.openOn lcfg file
    let log := { ino := ino, bytes := st.log.file, synced := 0 }
    s = { map := st.map, disk := { log := log, offset := st.log.offset } }
  step := step dev mode

end KvStore.Repl.Cluster
