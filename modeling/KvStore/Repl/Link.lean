import KvStore.Lib.Runs
import KvStore.Repl.Follower
import KvStore.Repl.Leader

/-!
# A leader, a follower, and the link between them

The leader writes, ships its log over the connection and reads acknowledgements;
the follower connects, reads what arrives, and may lose the connection or be
killed at any time. Each step is what one side does between two system calls, so
the bytes in flight are part of the state and can be split anywhere.

The leader's log is one file throughout: it is not compacted here, and its token
is a parameter.
-/

namespace KvStore.Repl

open Lib Wal Protocol

/-- One connection. What is lost with it is what is in flight, and the leader's session. -/
structure Conn where
  toLeader : Bytes := []
  toFollower : Bytes := []
  /-- The leader's side, once it has read the request. -/
  session : Option Session := none
  /-- The follower has read the reply. -/
  greeted : Bool := false
  deriving DecidableEq, Repr

namespace Link

/-- A leader, a follower, and the connection between them. -/
structure State (lcfg fcfg : StoreConfig) where
  leader : Store lcfg
  follower : Follower fcfg := {}
  conn : Option Conn := none
  /-- Ghost: what the leader has been asked to write. -/
  written : List Op := []
  /-- Ghost: the offsets the follower has acknowledged. -/
  acks : List Nat := []
  /-- Ghost: the link has been given up over a record that the applier refused. -/
  rejected : Bool := false

/-- What happens next between them. -/
inductive Act where
  /-- A client of the leader writes. -/
  | write (op : Op)
  /-- The follower connects and sends its request. -/
  | connect
  /-- The leader reads the request and answers it. -/
  | handshake
  /-- The follower reads the reply. -/
  | greet
  /-- The leader reads at most `n` bytes of its log and sends them. -/
  | ship (n : Nat)
  /-- The follower reads at most `n` bytes of the stream. -/
  | read (n : Nat)
  /-- The leader reads at most `n` bytes of acknowledgements. -/
  | drain (n : Nat)
  /-- The connection is lost. -/
  | drop
  /-- The follower is killed, as it writes what it got from reading at most `n` bytes more;
  `k` bytes of that reach its log. It is then started again. -/
  | crash (n k : Nat)
  deriving DecidableEq, Repr

variable {lcfg fcfg : StoreConfig}

/-- The connection is gone, on both sides. -/
def State.hangUp (s : State lcfg fcfg) : State lcfg fcfg :=
  { s with conn := none, follower := s.follower.disconnect }

/-- The follower gives the connection up. -/
def State.giveUp (s : State lcfg fcfg) (e : Drop) : State lcfg fcfg :=
  { s.hangUp with rejected := s.rejected || decide (e = .rejected) }

/-- The follower acknowledges what it has. -/
def State.acknowledge (s : State lcfg fcfg) (c : Conn) (offset : Nat) : State lcfg fcfg :=
  { s with
    conn := some { c with toLeader := c.toLeader ++ ackLine offset }
    acks := s.acks ++ [offset] }

/-- The bytes a follower gets when it reads at most `n`. -/
def incoming (conn : Option Conn) (n : Nat) : Bytes :=
  match conn with
  | some c => if c.greeted then c.toFollower.take (min n kReadChunkBytes) else []
  | none => []

/-- A follower that was killed and started again on what its log had come to. -/
def restart (f : Follower fcfg) (file : Bytes) : Follower fcfg :=
  { store := Store.openOn fcfg file, savedToken := f.savedToken }

/-- A step of the leader, of the follower or of the connection. -/
def step (token : Bytes) (s : State lcfg fcfg) : Act → Option (State lcfg fcfg)
  | .write op =>
      if op.Fits then
        some { s with leader := (s.leader.perform op {}).1, written := s.written ++ [op] }
      else none
  | .connect =>
      match s.conn with
      | none => some { s with conn := some { toLeader := s.follower.request } }
      | some _ => none
  | .handshake =>
      match s.conn with
      | some c =>
          if c.session.isSome then none
          else
            match readLine [] c.toLeader with
            | .line line rest =>
                match Session.performHandshake line token s.leader.logOffset with
                | (reply, some session) =>
                    let c :=
                      { c with toLeader := rest, toFollower := reply, session := some session }
                    some { s with conn := some c }
                | (_, none) => some s.hangUp
            | .tooLong => some s.hangUp
            | .incomplete => none
      | none => none
  | .greet =>
      match s.conn with
      | some c =>
          if c.greeted then none
          else
            match readLine [] c.toFollower with
            | .line line rest =>
                match s.follower.onReply line true true with
                | (follower, .ok _) =>
                    some (State.acknowledge { s with follower := follower }
                      { c with toFollower := rest, greeted := true } follower.store.logOffset)
                | (follower, .error e) => some (State.giveUp { s with follower := follower } e)
            | .tooLong => some (s.giveUp .handshake)
            | .incomplete => none
      | none => none
  | .ship n =>
      match s.conn with
      | some c =>
          match c.session.bind (·.shipChunk s.leader.log.file s.leader.logOffset n) with
          | some (session, bytes) =>
              let c := { c with toFollower := c.toFollower ++ bytes, session := some session }
              some { s with conn := some c }
          | none => none
      | none => none
  | .read n =>
      match s.conn with
      | some c =>
          if c.greeted = true ∧ incoming s.conn n ≠ [] then
            let c := { c with toFollower := c.toFollower.drop (incoming s.conn n).length }
            match s.follower.receive (incoming s.conn n) {} with
            | (follower, .ok none) => some { s with follower := follower, conn := some c }
            | (follower, .ok (some offset)) =>
                some (State.acknowledge { s with follower := follower } c offset)
            | (follower, .error e) => some (State.giveUp { s with follower := follower } e)
          else none
      | none => none
  | .drain n =>
      match s.conn with
      | some c =>
          match c.session.map (·.drainAcks (c.toLeader.take (min n kAckReadBytes))) with
          | some (session, true) =>
              let rest := c.toLeader.drop (min n kAckReadBytes)
              some { s with conn := some { c with toLeader := rest, session := some session } }
          | some (_, false) => some s.hangUp
          | none => none
      | none => none
  | .drop =>
      match s.conn with
      | some _ => some s.hangUp
      | none => none
  | .crash n k =>
      let written := (s.follower.batch (incoming s.conn n)).flatMap frame
      some { s with
        conn := none
        follower := restart s.follower (s.follower.store.log.file ++ written.take k) }

/-- Both start with nothing. -/
def system (lcfg fcfg : StoreConfig) (dev ino : Nat) : System (State lcfg fcfg) Act where
  init s := s = { leader := Store.openOn lcfg [] }
  step := step (replicationToken dev ino)

end Link

end KvStore.Repl
