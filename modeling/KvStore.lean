import KvStore.Lib.Framing
import KvStore.Lib.LittleEndian
import KvStore.Wal.Record
import KvStore.Protocol.Commands
import KvStore.Lib.Updates
import KvStore.Lib.Runs
import KvStore.Lib.Slots
import KvStore.Lib.Sums
import KvStore.Lib.Words
import KvStore.Store.LruPolicy
import KvStore.Store.ShardedMap
import KvStore.Wal.WriteAheadLog
import KvStore.Store.Store
import KvStore.Store.RecordApplier
import KvStore.Store.Meaning
import KvStore.Lib.Decimal
import KvStore.Repl.Control
import KvStore.Repl.Follower
import KvStore.Repl.Leader
import KvStore.Repl.Link
import KvStore.Wal.Compactor
import KvStore.Repl.Cluster
import KvStore.Proof.Recovery
import KvStore.Proof.Durability
import KvStore.Proof.FailedAppend
import KvStore.Proof.Interleaving
import KvStore.Proof.Intake
import KvStore.Proof.Streaming
import KvStore.Proof.Holding
import KvStore.Proof.Drift
import KvStore.Proof.Handshake
import KvStore.Proof.Resume
import KvStore.Proof.SyncAck
import KvStore.Pool.ThreadPool
import KvStore.Proof.Tasks
import KvStore.Proof.Compaction
import KvStore.Proof.Eviction
import KvStore.Proof.Epoch
import KvStore.Proof.Sessions
import KvStore.Proof.Values
import KvStore.Proof.Replies
import KvStore.Proof.Dialogue
import KvStore.Proof.Engines
import KvStore.Proof.Locking
import KvStore.Proof.Formats
import KvStore.Lib.TableCrc
import KvStore.Wal.Checksum
import KvStore.Proof.Damage
import KvStore.Proof.Recency
import KvStore.Store.LockModes
import KvStore.Proof.PlainMap
import KvStore.Proof.Budget
import KvStore.Proof.ReadOnly
import KvStore.Proof.Reads
import KvStore.Proof.Buffers
import KvStore.Lib.LineReader
import KvStore.Proof.Reading
import KvStore.Proof.Splitting
import KvStore.Net.Poller
import KvStore.Proof.Polling
import KvStore.Proof.Scheduling
import KvStore.Proof.Starvation
import KvStore.Proof.Grammar
import KvStore.Proof.Acks
import KvStore.Repl.Lag
import KvStore.Proof.Lag
import KvStore.Store.Disk
import KvStore.Proof.PowerCut
import KvStore.Proof.Answers
import KvStore.Net.Loop
import KvStore.Net.Server
import KvStore.Proof.Loop
import KvStore.Proof.Crowd
import KvStore.Pool.Monitor
import KvStore.Proof.Wakeups
import KvStore.Repl.Threads
import KvStore.Proof.Threads
import KvStore.Main.Options
import KvStore.Proof.Options
