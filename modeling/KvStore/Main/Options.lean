import KvStore.Pool.TaskQueue
import KvStore.Repl.Cluster

/-!
# The command line

`src/main.cpp`, up to the construction of the server, and the texts of the options that are
words. An argument is the bytes of a C string (`CString`). What is written to the terminal
besides the reason for a refusal (the usage, warnings and notes) is left out, and so are the
signal handlers.
-/

namespace KvStore.Main

open Lib Wal Repl Pool
open Cluster (ReplMode)

/-- No byte of the text is NUL, which would be its end. -/
def CString (text : Bytes) : Prop := 0 ∉ text

instance (text : Bytes) : Decidable (CString text) := inferInstanceAs (Decidable (_ ∉ _))

/-! ## Words -/

/-- `Role`. -/
inductive Role where
  | standalone
  | leader
  | follower
  deriving DecidableEq, Repr

/-- `IoMode`. -/
inductive IoMode where
  | threadPool
  | eventLoop
  deriving DecidableEq, Repr

/-- `PollerKind`. -/
inductive PollerKind where
  | auto
  | poll
  | epoll
  deriving DecidableEq, Repr

/-- The word behind `--lock-mode`. -/
def parseLockMode (text : Bytes) : Option LockMode :=
  if text = ascii "none" then some .none
  else if text = ascii "global-mutex" then some .globalMutex
  else if text = ascii "global-shared" then some .globalSharedMutex
  else if text = ascii "sharded" then some .sharded
  else none

/-- The word behind `--fsync`. -/
def parseFsyncMode (text : Bytes) : Option FsyncMode :=
  if text = ascii "always" then some .always
  else if text = ascii "interval" then some .interval
  else if text = ascii "never" then some .never
  else none

/-- The word behind `--schedule`. -/
def parseSchedulingPolicy (text : Bytes) : Option SchedulingPolicy :=
  if text = ascii "fcfs" then some .fcfs
  else if text = ascii "priority" then some .priority
  else if text = ascii "rr" ∨ text = ascii "round-robin" then some .roundRobin
  else none

/-- What the program calls a scheduling policy. -/
def schedulingPolicyName : SchedulingPolicy → String
  | .fcfs => "fcfs"
  | .priority => "priority"
  | .roundRobin => "round-robin"

/-- The word behind `--role`. -/
def parseRole (text : Bytes) : Option Role :=
  if text = ascii "standalone" ∨ text = ascii "none" then some .standalone
  else if text = ascii "leader" ∨ text = ascii "primary" ∨ text = ascii "master" then some .leader
  else if text = ascii "follower" ∨ text = ascii "replica" ∨ text = ascii "slave" then
    some .follower
  else none

/-- What the program calls a role. -/
def roleName : Role → String
  | .standalone => "standalone"
  | .leader => "leader"
  | .follower => "follower"

/-- The word behind `--repl-mode`. -/
def parseReplMode (text : Bytes) : Option ReplMode :=
  if text = ascii "async" then some .async
  else if text = ascii "sync" then some .sync
  else none

/-- What the program calls a mode of replication. -/
def replModeName : ReplMode → String
  | .async => "async"
  | .sync => "sync"

/-- The word behind `--io`. -/
def parseIoMode (text : Bytes) : Option IoMode :=
  if text = ascii "threads" ∨ text = ascii "pool" then some .threadPool
  else if text = ascii "loop" ∨ text = ascii "event-loop" ∨ text = ascii "async" then
    some .eventLoop
  else none

/-- What the program calls a way to serve its clients. -/
def ioModeName : IoMode → String
  | .threadPool => "threads"
  | .eventLoop => "event-loop"

/-- The word behind `--poller`. -/
def parsePollerKind (text : Bytes) : Option PollerKind :=
  if text = ascii "auto" then some .auto
  else if text = ascii "poll" then some .poll
  else if text = ascii "epoll" then some .epoll
  else none

/-- What the program calls a kind of poller. -/
def pollerKindName : PollerKind → String
  | .auto => "auto"
  | .poll => "poll"
  | .epoll => "epoll"

/-! ## Numbers -/

/-- Blanks and a sign: whether the sign is a minus, and the text behind it. -/
def takeSign (text : Bytes) : Bool × Bytes :=
  let body := text.dropWhile isSpace
  if body.head? = some 45 then (true, body.drop 1)
  else if body.head? = some 43 then (false, body.drop 1)
  else (false, body)

/-- `std::strtoul` in base ten: the value, and the text behind it. Without a digit nothing is
read; a number that is too large gives the largest value, and a minus sign wraps around. -/
def strtoul (text : Bytes) : Nat × Bytes :=
  let r := takeSign text
  let digits := r.2.takeWhile isDigit
  if digits = [] then (0, text)
  else
    let value := ofDecimal digits
    let value :=
      if value < 2 ^ 64 then (if r.1 then (2 ^ 64 - value) % 2 ^ 64 else value) else 2 ^ 64 - 1
    (value, r.2.dropWhile isDigit)

/-- A number that is not zero, and not too large. -/
def parseUnsigned (text : Bytes) (maxValue : Nat) : Option Nat :=
  if text = [] then none
  else
    let r := strtoul text
    if r.2 ≠ [] then none
    else if r.1 = 0 ∨ r.1 > maxValue then none
    else some r.1

/-- The number behind `--max-memory`, which may be zero. -/
def parseMemory (text : Bytes) : Option Nat :=
  let r := strtoul text
  if r.2 = text ∨ r.2 ≠ [] then none else some r.1

/-- What stands between a host and its port. -/
def colon : UInt8 := 58

/-- The text in front of the last colon, and behind it. -/
def splitPeer (peer : Bytes) : Option (Bytes × Bytes) :=
  if colon ∈ peer then
    some (((peer.reverse.dropWhile (· ≠ colon)).drop 1).reverse,
      (peer.reverse.takeWhile (· ≠ colon)).reverse)
  else none

/-! ## Options -/

/-- `ReplConfig`, with its defaults. -/
structure ReplConfig where
  role : Role := .standalone
  listenPort : Nat := 6390
  peerHost : Bytes := ascii "127.0.0.1"
  peerPort : Nat := 6390
  mode : ReplMode := .async
  ackTimeoutMs : Nat := 1000
  deriving DecidableEq, Repr

/-- `IoConfig`, with its defaults. -/
structure IoConfig where
  mode : IoMode := .threadPool
  poller : PollerKind := .auto
  deriving DecidableEq, Repr

/-- The variables of `main`. -/
structure Options where
  port : Nat := 6380
  threads : Nat := 4
  lockMode : LockMode := .sharded
  shards : Nat := 16
  maxMemory : Nat := 0
  logPath : Bytes := []
  fsyncMode : FsyncMode := .always
  fsyncIntervalMs : Nat := 1000
  schedulingPolicy : SchedulingPolicy := .fcfs
  aging : Bool := false
  replConfig : ReplConfig := {}
  ioConfig : IoConfig := {}
  deriving DecidableEq, Repr

/-- The texts that are kept as they came are C strings still. -/
def Options.CStrings (o : Options) : Prop := CString o.logPath ∧ CString o.replConfig.peerHost

/-- Why `main` gives up: what it writes, and whether the usage comes behind it. -/
structure Refusal where
  message : String := ""
  usage : Bool := false
  deriving DecidableEq, Repr

/-- The options that are followed by a value. -/
inductive Flag where
  | port
  | threads
  | lockMode
  | shards
  | maxMemory
  | log
  | fsync
  | fsyncIntervalMs
  | schedule
  | role
  | replPort
  | peer
  | replMode
  | io
  | poller
  | replAckTimeoutMs
  deriving DecidableEq, Repr

namespace Flag

/-- In the order in which `main` compares. -/
def all : List Flag :=
  [port, threads, lockMode, shards, maxMemory, log, fsync, fsyncIntervalMs, schedule, role,
    replPort, peer, replMode, io, poller, replAckTimeoutMs]

/-- How the option is written. -/
def text : Flag → Bytes
  | port => ascii "--port"
  | threads => ascii "--threads"
  | lockMode => ascii "--lock-mode"
  | shards => ascii "--shards"
  | maxMemory => ascii "--max-memory"
  | log => ascii "--log"
  | fsync => ascii "--fsync"
  | fsyncIntervalMs => ascii "--fsync-interval-ms"
  | schedule => ascii "--schedule"
  | role => ascii "--role"
  | replPort => ascii "--repl-port"
  | peer => ascii "--peer"
  | replMode => ascii "--repl-mode"
  | io => ascii "--io"
  | poller => ascii "--poller"
  | replAckTimeoutMs => ascii "--repl-ack-timeout-ms"

end Flag

/-- A value that could be read is kept. -/
def accept {α : Type} (parsed : Option α) (message : String) (set : α → Options) :
    Except Refusal Options :=
  match parsed with
  | some value => .ok (set value)
  | none => .error { message := message }

/-- `--peer`. -/
def acceptPeer (o : Options) (peer : Bytes) : Except Refusal Options :=
  match splitPeer peer with
  | none =>
      .error { message := "invalid --peer value (expected HOST:PORT, e.g. 127.0.0.1:6390)\n" }
  | some (host, port) =>
      if host = [] ∨ port = [] then
        .error { message := "invalid --peer value (expected HOST:PORT, e.g. 127.0.0.1:6390)\n" }
      else
        accept (parseUnsigned port 65535) "invalid port in --peer\n" fun value =>
          { o with
            replConfig := { o.replConfig with peerHost := host, peerPort := value % 2 ^ 16 } }

/-- One option with its value. -/
def Flag.set (o : Options) (value : Bytes) : Flag → Except Refusal Options
  | .port =>
      accept (parseUnsigned value 65535) "invalid --port value\n" fun n => { o with port := n }
  | .threads =>
      accept (parseUnsigned value 1024) "invalid --threads value\n" fun n => { o with threads := n }
  | .lockMode =>
      match parseLockMode value with
      | some mode => .ok { o with lockMode := mode }
      | none => .error { message := "invalid --lock-mode value\n", usage := true }
  | .shards =>
      accept (parseUnsigned value 4096) "invalid --shards value\n" fun n => { o with shards := n }
  | .maxMemory =>
      accept (parseMemory value) "invalid --max-memory value (plain bytes, e.g. 1048576)\n"
        fun n => { o with maxMemory := n }
  | .log =>
      if value = [] then .error { message := "--log requires a path\n" }
      else .ok { o with logPath := value }
  | .fsync =>
      accept (parseFsyncMode value) "invalid --fsync value (always | interval | never)\n"
        fun mode => { o with fsyncMode := mode }
  | .fsyncIntervalMs =>
      accept (parseUnsigned value 60000) "invalid --fsync-interval-ms value\n"
        fun n => { o with fsyncIntervalMs := n }
  | .schedule =>
      accept (parseSchedulingPolicy value) "invalid --schedule value (fcfs | priority | rr)\n"
        fun policy => { o with schedulingPolicy := policy }
  | .role =>
      accept (parseRole value) "invalid --role value (standalone | leader | follower)\n"
        fun role => { o with replConfig := { o.replConfig with role := role } }
  | .replPort =>
      accept (parseUnsigned value 65535) "invalid --repl-port value\n"
        fun n => { o with replConfig := { o.replConfig with listenPort := n % 2 ^ 16 } }
  | .peer => acceptPeer o value
  | .replMode =>
      accept (parseReplMode value) "invalid --repl-mode value (async | sync)\n"
        fun mode => { o with replConfig := { o.replConfig with mode := mode } }
  | .io =>
      accept (parseIoMode value) "invalid --io value (threads | loop)\n"
        fun mode => { o with ioConfig := { o.ioConfig with mode := mode } }
  | .poller =>
      accept (parsePollerKind value) "invalid --poller value (auto | poll | epoll)\n"
        fun kind => { o with ioConfig := { o.ioConfig with poller := kind } }
  | .replAckTimeoutMs =>
      accept (parseUnsigned value 60000) "invalid --repl-ack-timeout-ms value\n"
        fun n => { o with replConfig := { o.replConfig with ackTimeoutMs := n } }

/-- The loop over the arguments. An option that is not known, or is the last argument and
should have a value, is answered with the usage. -/
def parseArgs (o : Options) : List Bytes → Except Refusal Options
  | [] => .ok o
  | [arg] =>
      if arg = ascii "--aging" then .ok { o with aging := true } else .error { usage := true }
  | arg :: value :: rest =>
      if arg = ascii "--aging" then parseArgs { o with aging := true } (value :: rest)
      else
        match Flag.all.find? fun flag => decide (flag.text = arg) with
        | none => .error { usage := true }
        | some flag =>
            match flag.set o value with
            | .error refusal => .error refusal
            | .ok o => parseArgs o rest

/-- What `main` looks at when it has read all arguments. -/
def check (epollAvailable : Bool) (o : Options) : Except Refusal Options :=
  if o.replConfig.role ≠ .standalone ∧ o.logPath = [] then
    .error
      { message := "--role " ++ roleName o.replConfig.role
          ++ " requires --log: replication works by shipping the write-ahead log\n" }
  else if o.replConfig.role = .leader ∧ o.replConfig.listenPort = o.port % 2 ^ 16 then
    .error { message := "--repl-port must differ from --port\n" }
  else if o.ioConfig.poller = .epoll ∧ epollAvailable = false then
    .error { message := "--poller epoll requires Linux. Use --poller poll, or run in Docker.\n" }
  else .ok o

/-- `main`, up to the server. -/
def configure (epollAvailable : Bool) (args : List Bytes) : Except Refusal Options :=
  match parseArgs {} args with
  | .error refusal => .error refusal
  | .ok o => check epollAvailable o

end KvStore.Main
