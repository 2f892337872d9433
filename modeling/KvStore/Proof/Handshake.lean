import KvStore.Repl.Cluster
import KvStore.Proof.Recovery

/-!
# A session ships the file it named

The reply of a handshake names a file by its token; what the session then ships
comes from the file it opens a little later, by path. The two are the same file
unless a compaction renames in between: from the moment the file is open, nothing
that happens to the path concerns the session any more.
-/

namespace KvStore.Repl.Cluster

open Lib Wal Protocol

variable {lcfg fcfg : StoreConfig} {n m w : Nat} {dev : Nat}

/-! ## Files -/

namespace Disk

theorem getElem?_files (d : Disk) (j : Nat) :
    d.files[j]? = if j = d.old.length then some d.log else d.old[j]? := by
  rw [files]
  rcases Nat.lt_trichotomy j d.old.length with h | h | h
  · rw [List.getElem?_append_left h, if_neg (by omega)]
  · rw [if_pos h, h, List.getElem?_append_right (Nat.le_refl _)]
    simp
  · rw [if_neg (by omega), List.getElem?_eq_none (by simp; omega),
      List.getElem?_eq_none (by omega)]

theorem le_of_getElem?_files {d : Disk} {j : Nat} {file : LogFile}
    (h : d.files[j]? = some file) : j ≤ d.old.length := by
  have := (List.getElem?_eq_some_iff.mp h).1
  rw [files, List.length_append] at this
  simpa using Nat.le_of_lt_succ this

/-- No file is lost, renumbered or cut. -/
def Grows (d d' : Disk) : Prop :=
  ∀ (j : Nat) (file : LogFile), d.files[j]? = some file →
    ∃ file' : LogFile, d'.files[j]? = some file' ∧ file'.ino = file.ino ∧ file.bytes <+: file'.bytes

/-- The same file at the path, and perhaps more of it. -/
structure Extends (d d' : Disk) : Prop where
  old : d'.old = d.old
  ino : d'.log.ino = d.log.ino
  bytes : d.log.bytes <+: d'.log.bytes
  shipped : d.log.shipped ≤ d'.log.shipped

theorem Extends.refl (d : Disk) : d.Extends d := ⟨rfl, rfl, List.prefix_rfl, Nat.le_refl _⟩

theorem Extends.token {d d' : Disk} (h : d.Extends d') : d'.token dev = d.token dev := by
  rw [Disk.token, Disk.token, LogFile.token, LogFile.token, h.ino]

theorem Extends.grows {d d' : Disk} (h : d.Extends d') : d.Grows d' := by
  intro j file hj
  rw [getElem?_files] at hj ⊢
  rw [h.old]
  split at hj
  · rename_i hlast
    obtain rfl := Option.some.inj hj
    exact ⟨d'.log, if_pos hlast, h.ino, h.bytes⟩
  · rename_i hlast
    exact ⟨file, by rw [if_neg hlast, hj], rfl, List.prefix_rfl⟩

theorem Extends.inos {d d' : Disk} (h : d.Extends d') :
    d'.files.map LogFile.ino = d.files.map LogFile.ino := by
  simp [files, h.old, h.ino]

theorem grows_rename (d : Disk) (ino : Nat) (bytes : Bytes) : d.Grows (d.rename ino bytes) := by
  intro j file hj
  refine ⟨file, ?_, rfl, List.prefix_rfl⟩
  have hfiles : (d.rename ino bytes).files = d.files ++ [(d.rename ino bytes).log] := rfl
  rw [hfiles, List.getElem?_append_left (List.getElem?_eq_some_iff.mp hj).1, hj]

theorem extends_noteShipped (d : Disk) (file sent : Nat) :
    d.Extends (d.noteShipped file sent) := by
  rw [noteShipped]
  split
  · exact ⟨rfl, rfl, List.prefix_rfl, Nat.le_max_left _ _⟩
  · exact .refl d

end Disk

theorem extends_socket_noteShipped (c : Socket n) (d : Disk) : d.Extends (c.noteShipped d) := by
  unfold Socket.noteShipped
  split
  · exact d.extends_noteShipped _ _
  · exact .refl d

/-! ## What the parties can do -/

/-- What a step of a client thread comes to. -/
inductive Wrote (s : State lcfg fcfg n m w) (t : Fin w) : Write → State lcfg fcfg n m w → Prop
  | entered {op : Op} (hidle : s.compaction = .idle) (hop : op.payloads ≠ []) :
      Wrote s t (.enter op) (s.setWriter t (some (.entered op)))
  | appended {op : Op} {wal : WriteAheadLog} {blob : Bytes} (ht : s.writers t = some (.entered op))
      (hfile : wal.file = s.disk.log.bytes ++ blob)
      (hoffset : wal.offset = s.disk.offset + blob.length)
      (hblob : op.payloads ≠ [] → blob = op.bytes) :
      Wrote s t .append (State.setWriter { s with disk := s.disk.append lcfg.fsyncMode wal } t
        (some (.appended op (s.disk.offset + blob.length))))
  | applied {op : Op} {endOffset : Nat} (ht : s.writers t = some (.appended op endOffset)) :
      Wrote s t .apply (State.setWriter { s with map := op.applyTo s.map } t
        (some (.applied op endOffset)))
  | waits {op : Op} {endOffset : Nat} (ht : s.writers t = some (.applied op endOffset)) :
      Wrote s t .announce (s.setWriter t (some (.waiting op endOffset)))
  /-- It returns to its client, with or without having waited. -/
  | left {a : Write} (ackTimeouts syncDegraded : Nat) :
      Wrote s t a (State.setWriter
        { s with ackTimeouts := ackTimeouts, syncDegraded := syncDegraded } t none)

theorem stepWrite_effect {mode : ReplMode} {s s' : State lcfg fcfg n m w} {t : Fin w} {a : Write}
    (hs : stepWrite mode s t a = some s') : Wrote s t a s' := by
  cases a with
  | enter op =>
      rw [stepWrite] at hs
      split at hs
      · split at hs
        · rename_i hgo
          cases hs
          exact .entered hgo.1 hgo.2
        · exact absurd hs (by simp)
      · exact absurd hs (by simp)
  | append =>
      rw [stepWrite] at hs
      split at hs
      · rename_i op ht
        obtain ⟨wal, blob, happ, hfile, hoffset, hblob⟩ := append_ok lcfg.fsyncMode s.disk.wal op
        rw [happ] at hs
        cases hs
        exact .appended ht hfile hoffset hblob
      · exact absurd hs (by simp)
  | apply =>
      rw [stepWrite] at hs
      split at hs
      · rename_i ht
        cases hs
        exact .applied ht
      · exact absurd hs (by simp)
  | announce =>
      rw [stepWrite] at hs
      split at hs
      · rename_i ht
        -- nobody waits in asynchronous mode, or when there is no session
        split at hs
        · cases hs
          exact .left s.ackTimeouts s.syncDegraded
        · split at hs
          · cases hs
            exact .left s.ackTimeouts (s.syncDegraded + 1)
          · cases hs
            exact .waits ht
      · exact absurd hs (by simp)
  | confirm =>
      rw [stepWrite] at hs
      split at hs
      · split at hs
        · cases hs
          exact .left s.ackTimeouts s.syncDegraded
        · exact absurd hs (by simp)
      · exact absurd hs (by simp)
  | expire =>
      rw [stepWrite] at hs
      split at hs
      · cases hs
        exact .left (s.ackTimeouts + 1) s.syncDegraded
      · exact absurd hs (by simp)

/-- A client thread changes nothing but the map, its own place, and the end of the log. -/
theorem Wrote.frame {s s' : State lcfg fcfg n m w} {t : Fin w} {a : Write} (h : Wrote s t a s') :
    s.disk.Extends s'.disk ∧ s'.sockets = s.sockets ∧ s'.peers = s.peers
      ∧ s'.disk.replaced = s.disk.replaced ∧ s.disk.offset ≤ s'.disk.offset := by
  cases h with
  | entered _ _ => exact ⟨.refl _, rfl, rfl, rfl, Nat.le_refl _⟩
  | @appended op wal blob _ hfile hoffset _ =>
      refine ⟨⟨rfl, rfl, ?_, Nat.le_refl _⟩, rfl, rfl, rfl, ?_⟩
      · show s.disk.log.bytes <+: wal.file
        rw [hfile]
        exact List.prefix_append _ _
      · show s.disk.offset ≤ wal.offset
        rw [hoffset]
        exact Nat.le_add_right _ _
  | applied _ => exact ⟨.refl _, rfl, rfl, rfl, Nat.le_refl _⟩
  | waits _ => exact ⟨.refl _, rfl, rfl, rfl, Nat.le_refl _⟩
  | left _ _ => exact ⟨.refl _, rfl, rfl, rfl, Nat.le_refl _⟩

/-- The offset up to which a session is shipping. -/
def Loop.target : Loop → Option Nat
  | .polling => none
  | .shipping target | .sending target => some target

/-- What a step of the leader does to a connection. -/
inductive Serves (dev : Nat) (d : Disk) (c : Socket n) : Socket n → Prop
  | identified {line rest token : Bytes} {requested : Nat} (hstage : c.stage = .queued)
      (hline : readLine [] c.toLeader = .line line rest)
      (hparse : parseSync line = .ok (token, requested)) :
      Serves dev d c { c with
        toLeader := rest, stage := .identified (d.token dev) token requested }
  | complained {line rest reply : Bytes} (hstage : c.stage = .queued)
      (hline : readLine [] c.toLeader = .line line rest) (hparse : parseSync line = .error reply) :
      Serves dev d c { c with toLeader := rest, toFollower := reply, stage := .closed }
  | overlong (hstage : c.stage = .queued) : Serves dev d c { c with stage := .closed }
  | replied {leaderToken token : Bytes} {requested : Nat}
      (hstage : c.stage = .identified leaderToken token requested) :
      Serves dev d c { c with
        toFollower := (answer token requested leaderToken d.offset).1
        stage := .replied leaderToken
          { sentOffset := (answer token requested leaderToken d.offset).2
            acked := (answer token requested leaderToken d.offset).2 } }
  | refused (hstage : c.accepting = true) : Serves dev d c { c with stage := .closed }
  | opened {leaderToken : Bytes} {session : Session}
      (hstage : c.stage = .replied leaderToken session) :
      Serves dev d c { c with
        stage := .opened { token := leaderToken, session := session, file := d.old.length,
                           start := session.sentOffset } }
  | registered {v : Served} (hstage : c.stage = .opened v) :
      Serves dev d c { c with stage := .serving v }
  | moved {v : Served} {loop : Loop} (hstage : c.stage = .serving v)
      (hloop : loop.target = none ∨ loop.target = some d.offset ∨ loop.target = v.loop.target) :
      Serves dev d c { c with stage := .serving { v with loop := loop } }
  | shipped {v : Served} {file : LogFile} {target count : Nat} {session : Session} {bytes : Bytes}
      (hstage : c.stage = .serving v) (hloop : v.loop.target = some target)
      (hfile : d.files[v.file]? = some file)
      (hchunk : v.session.shipChunk file.bytes target count = some (session, bytes)) :
      Serves dev d c { c with
        toFollower := c.toFollower ++ bytes
        stage := .serving { v with
          session := session, loop := .shipping target, stream := v.stream ++ bytes } }
  | drained {v : Served} (count : Nat) (hstage : c.stage = .serving v) :
      Serves dev d c { c with
        toLeader := c.toLeader.drop count
        stage := .serving { v with
          session := (v.session.drainAcks (c.toLeader.take count)).1
          finished := !(v.session.drainAcks (c.toLeader.take count)).2 } }
  | finished {v : Served} (hstage : c.stage = .serving v) :
      Serves dev d c { c with stage := .serving { v with finished := true } }

theorem served_some {c : Socket n} {v : Served} (h : c.served = some v) : c.stage = .serving v := by
  unfold Socket.served at h
  split at h
  · rename_i hstage
    rw [hstage, Option.some.inj h]
  · exact absurd h (by simp)

theorem running_some {c : Socket n} {v : Served} (h : c.running = some v) :
    c.stage = .serving v := served_some (Option.filter_eq_some_iff.mp h).1

theorem sessions_some {s : State lcfg fcfg n m w} {k : Fin m} {v : Served}
    (h : s.sessions k = some v) : ∃ c, s.sockets k = some c ∧ c.stage = .serving v := by
  obtain ⟨c, hc, hv⟩ := Option.bind_eq_some_iff.mp h
  exact ⟨c, hc, served_some hv⟩

theorem serve_effect {d : Disk} {c c' : Socket n} {a : Serve} (h : c.serve dev d a = some c') :
    Serves dev d c c' := by
  cases a with
  | identify =>
      rw [Socket.serve] at h
      split at h
      · rename_i hstage
        -- a line that is no request is answered with a complaint
        split at h
        · rename_i line rest hline
          split at h
          · rename_i hparse
            cases h
            exact .complained hstage hline hparse
          · rename_i hparse
            cases h
            exact .identified hstage hline hparse
        · cases h
          exact .overlong hstage
        · exact absurd h (by simp)
      · exact absurd h (by simp)
  | reply =>
      rw [Socket.serve] at h
      split at h
      · rename_i hstage
        cases h
        exact .replied hstage
      · exact absurd h (by simp)
  | refuse =>
      rw [Socket.serve] at h
      split at h
      · rename_i hstage
        cases h
        exact .refused hstage
      · exact absurd h (by simp)
  | openLog =>
      rw [Socket.serve] at h
      split at h
      · rename_i hstage
        cases h
        exact .opened hstage
      · exact absurd h (by simp)
  | register =>
      rw [Socket.serve] at h
      split at h
      · rename_i hstage
        cases h
        exact .registered hstage
      · exact absurd h (by simp)
  | look =>
      rw [Socket.serve] at h
      split at h
      · rename_i v hrun
        split at h
        · cases h
          exact .moved (running_some hrun) (Or.inr (Or.inl rfl))
        · exact absurd h (by simp)
      · exact absurd h (by simp)
  | check =>
      rw [Socket.serve] at h
      split at h
      · rename_i v hrun
        split at h
        · rename_i target hloop
          split at h
          · cases h
            exact .moved (running_some hrun) (Or.inr (Or.inr (by rw [hloop]; rfl)))
          · exact absurd h (by simp)
        · exact absurd h (by simp)
      · exact absurd h (by simp)
  | ship count =>
      rw [Socket.serve] at h
      split at h
      · rename_i v hrun
        split at h
        · rename_i target file hloop hfile
          split at h
          · rename_i hchunk
            cases h
            exact .shipped (running_some hrun) (by rw [hloop]; rfl) hfile hchunk
          · exact absurd h (by simp)
        · exact absurd h (by simp)
      · exact absurd h (by simp)
  | rest =>
      rw [Socket.serve] at h
      split at h
      · rename_i v hrun
        split at h
        · split at h
          · cases h
            exact .moved (running_some hrun) (Or.inl rfl)
          · exact absurd h (by simp)
        · exact absurd h (by simp)
      · exact absurd h (by simp)
  | drain count =>
      rw [Socket.serve] at h
      split at h
      · rename_i v hrun
        split at h
        · cases h
          exact .drained (min count kAckReadBytes) (running_some hrun)
        · exact absurd h (by simp)
      · exact absurd h (by simp)
  | finish =>
      rw [Socket.serve] at h
      split at h
      · rename_i v hrun
        cases h
        exact .finished (running_some hrun)
      · exact absurd h (by simp)

/-- A step of the leader on one connection. -/
theorem stepServe_effect {s s' : State lcfg fcfg n m w} {k : Fin m} {a : Serve}
    (hs : stepServe dev s k a = some s') :
    ∃ c c', s.sockets k = some c ∧ Serves dev s.disk c c'
      ∧ s' = State.setSocket { s with disk := c'.noteShipped s.disk } k c' := by
  rw [stepServe] at hs
  split at hs
  · exact absurd hs (by simp)
  · rename_i c hc
    split at hs
    · exact absurd hs (by simp)
    · split at hs
      · exact absurd hs (by simp)
      · rename_i c' hc'
        exact ⟨c, c', hc, serve_effect hc', (Option.some.inj hs).symm⟩

/-- What a step of a compaction comes to. -/
inductive Compacted (s : State lcfg fcfg n m w) : Compact → State lcfg fcfg n m w → Prop
  | renamed {ino : Nat} (hidle : s.compaction = .idle) (hwriters : ∀ t, s.writers t = none) :
      Compacted s (.rename ino) { s with
        compaction := .renamed
        disk := s.disk.rename ino (Compactor.rewrite s.map.snapshot) }
  | reopened (hstage : s.compaction = .renamed) :
      Compacted s .reopen { s with compaction := .reopened, disk := s.disk.reopen }
  | listed {sessions : List (Fin m)} (hstage : s.compaction = .reopened) :
      Compacted s .snapshot { s with compaction := .stopping sessions }
  | stopped {k : Fin m} {ks : List (Fin m)} (hstage : s.compaction = .stopping (k :: ks)) :
      Compacted s .stop { s with
        compaction := .stopping ks
        sockets := Function.update s.sockets k ((s.sockets k).map Socket.stop) }
  | released (hstage : s.compaction = .stopping []) :
      Compacted s .release { s with compaction := .idle }

theorem stepCompact_effect {s s' : State lcfg fcfg n m w} {a : Compact}
    (hs : stepCompact s a = some s') : Compacted s a s' := by
  cases a with
  | rename ino =>
      rw [stepCompact] at hs
      split at hs
      · rename_i hgo
        cases hs
        exact .renamed hgo.1 hgo.2.1
      · exact absurd hs (by simp)
  | reopen =>
      rw [stepCompact] at hs
      split at hs
      · rename_i hstage
        cases hs
        exact .reopened hstage
      · exact absurd hs (by simp)
  | snapshot =>
      rw [stepCompact] at hs
      split at hs
      · rename_i hstage
        cases hs
        exact .listed hstage
      · exact absurd hs (by simp)
  | stop =>
      rw [stepCompact] at hs
      split at hs
      · rename_i hstage
        cases hs
        exact .stopped hstage
      · exact absurd hs (by simp)
  | release =>
      rw [stepCompact] at hs
      split at hs
      · rename_i hstage
        cases hs
        exact .released hstage
      · exact absurd hs (by simp)

/-- What a step of a follower comes to. -/
inductive Followed (s : State lcfg fcfg n m w) (i : Fin n) :
    Follow m → State lcfg fcfg n m w → Prop
  | connected {k : Fin m} (hlink : (s.peers i).link = none) (hfree : s.sockets k = none) :
      Followed s i (.connect k)
        ((s.setPeer i { follower := (s.peers i).follower, link := some k }).setSocket k
        { peer := i
          toLeader := (s.peers i).follower.request
          asked := ((s.peers i).follower.savedToken, (s.peers i).follower.store.log.file) })
  | greeted {k : Fin m} {c : Socket n} {line rest : Bytes} {f : Follower fcfg}
      (hlink : (s.peers i).link = some k) (hc : s.sockets k = some c) (hnew : c.greeted = false)
      (hline : readLine [] c.toFollower = .line line rest)
      (hreply : (s.peers i).follower.onReply line true true = (f, .ok ())) :
      Followed s i .greet (acknowledge s i k { c with toFollower := rest, greeted := true } f
        f.store.logOffset)
  | refused {k : Fin m} {c : Socket n} {line rest : Bytes} {f : Follower fcfg} {e : Drop}
      (hlink : (s.peers i).link = some k) (hc : s.sockets k = some c) (hnew : c.greeted = false)
      (hline : readLine [] c.toFollower = .line line rest)
      (hreply : (s.peers i).follower.onReply line true true = (f, .error e)) :
      Followed s i .greet (s.leave i f)
  | waited {count : Nat} {k : Fin m} {c : Socket n} {chunk rest : Bytes} {f : Follower fcfg}
      (hlink : (s.peers i).link = some k) (hc : s.sockets k = some c) (hgreeted : c.greeted = true)
      (hchunk : c.toFollower = chunk ++ rest)
      (hreceive : (s.peers i).follower.receive chunk {} = (f, .ok none)) :
      Followed s i (.read count) ((s.setPeer i { follower := f, link := some k }).setSocket k
        { c with toFollower := rest })
  | advanced {count : Nat} {k : Fin m} {c : Socket n} {chunk rest : Bytes} {f : Follower fcfg}
      {offset : Nat}
      (hlink : (s.peers i).link = some k) (hc : s.sockets k = some c) (hgreeted : c.greeted = true)
      (hchunk : c.toFollower = chunk ++ rest)
      (hreceive : (s.peers i).follower.receive chunk {} = (f, .ok (some offset))) :
      Followed s i (.read count) (acknowledge s i k { c with toFollower := rest } f offset)
  | dropped {count : Nat} {k : Fin m} {c : Socket n} {chunk rest : Bytes} {f : Follower fcfg}
      {e : Drop}
      (hlink : (s.peers i).link = some k) (hc : s.sockets k = some c) (hgreeted : c.greeted = true)
      (hchunk : c.toFollower = chunk ++ rest)
      (hreceive : (s.peers i).follower.receive chunk {} = (f, .error e)) :
      Followed s i (.read count) (s.leave i f)
  | left {a : Follow m} {k : Fin m} (hlink : (s.peers i).link = some k) :
      Followed s i a (s.leave i (s.peers i).follower)
  | killed (count part keep : Nat) :
      Followed s i (.kill count part keep) (s.setPeer i
        { follower := Link.restart (s.peers i).follower (killedFile s i count part keep) })

theorem stepFollow_effect {s s' : State lcfg fcfg n m w} {i : Fin n} {a : Follow m}
    (hs : stepFollow s i a = some s') : Followed s i a s' := by
  cases a with
  | connect k =>
      rw [stepFollow] at hs
      split at hs
      · rename_i hlink hfree
        cases hs
        exact .connected hlink hfree
      · exact absurd hs (by simp)
  | greet =>
      rw [stepFollow] at hs
      split at hs
      · exact absurd hs (by simp)
      · rename_i k hlink
        split at hs
        · exact absurd hs (by simp)
        · rename_i c hc
          split at hs
          · exact absurd hs (by simp)
          · rename_i hnew
            have hnew : c.greeted = false := by simpa using hnew
            split at hs
            · rename_i line rest hline
              rcases hreply : (s.peers i).follower.onReply line true true with ⟨f, e | u⟩
              · rw [hreply] at hs
                cases hs
                exact .refused hlink hc hnew hline hreply
              · rw [hreply] at hs
                cases hs
                exact .greeted hlink hc hnew hline hreply
            · cases hs
              exact .left hlink
            · exact absurd hs (by simp)
  | read count =>
      rw [stepFollow] at hs
      split at hs
      · exact absurd hs (by simp)
      · rename_i k hlink
        split at hs
        · exact absurd hs (by simp)
        · rename_i c hc
          -- before the reply has been read, nothing else is
          have hin : incoming s (some k) count
              = if c.greeted then c.toFollower.take (min count kReadChunkBytes) else [] := by
            rw [incoming, Option.bind_some, hc]
          dsimp only at hs
          rw [hin] at hs
          by_cases hg : c.greeted = true
          · rw [if_pos hg] at hs
            split at hs
            · exact absurd hs (by simp)
            · generalize hchunk : c.toFollower.take (min count kReadChunkBytes) = chunk at hs
              have hcut : c.toFollower = chunk ++ c.toFollower.drop chunk.length := by
                have hpre : chunk <+: c.toFollower := hchunk ▸ List.take_prefix _ _
                obtain ⟨rest, hrest⟩ := hpre
                rw [← hrest, List.drop_left]
              rcases hr : (s.peers i).follower.receive chunk {} with ⟨f, e | _ | offset⟩
              · rw [hr] at hs
                cases hs
                exact .dropped hlink hc hg hcut hr
              · rw [hr] at hs
                cases hs
                exact .waited hlink hc hg hcut hr
              · rw [hr] at hs
                cases hs
                exact .advanced hlink hc hg hcut hr
          · rw [if_neg hg, if_pos rfl] at hs
            exact absurd hs (by simp)
  | hangUp =>
      rw [stepFollow] at hs
      split at hs
      · exact absurd hs (by simp)
      · rename_i k hlink
        cases hs
        exact .left hlink
  | kill count part keep =>
      rw [stepFollow] at hs
      cases hs
      exact .killed count part keep

/-! ## What a token promises -/

/-- What a session has shipped is the file it named, from where it started. -/
def Served.Reads (dev : Nat) (d : Disk) (v : Served) : Prop :=
  ∃ file : LogFile, d.files[v.file]? = some file ∧ v.token = file.token dev
    ∧ v.session.sentOffset = v.start + v.stream.length ∧ v.stream <+: file.bytes.drop v.start

/-- The token the leader has read names the log, until the log is open. -/
def Stage.Named (dev : Nat) (d : Disk) : Stage → Prop
  | .identified leaderToken _ _ => leaderToken = d.token dev
  | .replied leaderToken _ => leaderToken = d.token dev
  | .opened v => v.Reads dev d
  | .serving v => v.Reads dev d
  | .queued => True
  | .closed => True

theorem Served.Reads.grows {d d' : Disk} {v : Served} (h : v.Reads dev d) (hd : d.Grows d') :
    v.Reads dev d' := by
  obtain ⟨file, hfile, htoken, hsent, hstream⟩ := h
  obtain ⟨file', hfile', hino, hbytes⟩ := hd _ _ hfile
  refine ⟨file', hfile', ?_, hsent, hstream.trans ?_⟩
  · rw [htoken, LogFile.token, LogFile.token, hino]
  · obtain ⟨more, hmore⟩ := hbytes
    rw [← hmore, List.drop_append]
    exact List.prefix_append _ _

/-- Files that grow concern nobody; another file at the path, only who is about to open it. -/
theorem Stage.Named.grows {d d' : Disk} {c : Socket n} (h : c.stage.Named dev d) (hd : d.Grows d')
    (htoken : d'.token dev = d.token dev ∨ c.between = false) : c.stage.Named dev d' := by
  unfold Socket.between at htoken
  cases hstage : c.stage with
  | queued => exact trivial
  | closed => exact trivial
  | identified leaderToken token requested =>
      rw [hstage] at h htoken
      rcases htoken with htoken | htoken
      · exact (show leaderToken = d.token dev from h).trans htoken.symm
      · exact absurd htoken (by simp)
  | replied leaderToken session =>
      rw [hstage] at h htoken
      rcases htoken with htoken | htoken
      · exact (show leaderToken = d.token dev from h).trans htoken.symm
      · exact absurd htoken (by simp)
  | opened v =>
      rw [hstage] at h
      exact Served.Reads.grows h hd
  | serving v =>
      rw [hstage] at h
      exact Served.Reads.grows h hd

/-- **The leader's own steps keep the promise.** -/
theorem named_serves {d : Disk} {c c' : Socket n} (h : c.stage.Named dev d)
    (hs : Serves dev d c c') : c'.stage.Named dev d := by
  cases hs with
  | identified hstage hline hparse => exact rfl
  | complained hstage hline hparse => exact trivial
  | overlong hstage => exact trivial
  | refused hstage => exact trivial
  | replied hstage =>
      rw [hstage] at h
      exact h
  | opened hstage =>
      -- the path still names the file whose token was read
      rw [hstage] at h
      refine ⟨d.log, by rw [Disk.getElem?_files, if_pos rfl], h, rfl, List.nil_prefix⟩
  | registered hstage =>
      rw [hstage] at h
      exact h
  | moved hstage hloop =>
      rw [hstage] at h
      exact h
  | @shipped v file target count session bytes hstage hloop hfile hchunk =>
      rw [hstage] at h
      obtain ⟨file', hfile', htoken, hsent, hstream⟩ := h
      obtain rfl := Option.some.inj (hfile.symm.trans hfile')
      obtain ⟨hlen, hbytes, _, _⟩ := Session.shipChunk_bytes hchunk
      refine ⟨file, hfile, htoken, ?_, ?_⟩
      · show session.sentOffset = v.start + (v.stream ++ bytes).length
        rw [hlen, hsent, List.length_append, Nat.add_assoc]
      · show v.stream ++ bytes <+: file.bytes.drop v.start
        -- `pread` goes on where the stream has come to
        obtain ⟨rest, hrest⟩ := hstream
        rw [hsent, ← List.drop_drop, ← hrest, List.drop_left] at hbytes
        rw [← hrest]
        exact (List.prefix_append_right_inj _).mpr hbytes
  | drained count hstage =>
      rw [hstage] at h
      obtain ⟨file, hfile, htoken, hsent, hstream⟩ := h
      exact ⟨file, hfile, htoken, by rw [← hsent]; exact Session.drainAcks_sentOffset _ _, hstream⟩
  | finished hstage =>
      rw [hstage] at h
      exact h

theorem named_stop {d : Disk} {c : Socket n} (h : c.stage.Named dev d) :
    c.stop.stage.Named dev d := by
  unfold Socket.stop
  split
  · rename_i hstage
    rw [hstage] at h
    exact h
  · exact h

theorem named_reap {d : Disk} {c : Socket n} (h : c.stage.Named dev d) :
    c.reap.stage.Named dev d := by
  unfold Socket.reap
  split
  · split
    · exact trivial
    · exact h
  · exact h

/-! ## Whole runs -/

/-- A new log gets an inode number that no log has had before. -/
def Fresh (s : State lcfg fcfg n m w) : Act n m w → Prop
  | .compact (.rename ino) => ∀ file ∈ s.disk.files, file.ino ≠ ino
  | _ => True

/-- No log is renamed into place while a handshake has read a token and not yet opened the log. -/
def NoRenameInHandshake (s : State lcfg fcfg n m w) : Act n m w → Prop
  | .compact (.rename _) => ∀ k, (s.sockets k).any Socket.between = false
  | _ => True

instance (s : State lcfg fcfg n m w) (a : Act n m w) : Decidable (Fresh s a) := by
  unfold Fresh
  split <;> infer_instance

instance (s : State lcfg fcfg n m w) (a : Act n m w) : Decidable (NoRenameInHandshake s a) := by
  unfold NoRenameInHandshake
  split <;> infer_instance

/-- No two logs have one token, and sessions keep to theirs. -/
structure TokensHold (dev : Nat) (s : State lcfg fcfg n m w) : Prop where
  distinct : (s.disk.files.map LogFile.ino).Nodup
  named : ∀ k c, s.sockets k = some c → c.stage.Named dev s.disk

/-- To say something of all connections after one has changed. -/
theorem forall_update {P : Fin m → Socket n → Prop} {sockets : Fin m → Option (Socket n)}
    {k : Fin m} {o : Option (Socket n)} (hk : ∀ c, o = some c → P k c)
    (hrest : ∀ k' c, k' ≠ k → sockets k' = some c → P k' c) :
    ∀ k' c, Function.update sockets k o k' = some c → P k' c := by
  intro k' c hc
  by_cases heq : k' = k
  · subst heq
    rw [Function.update_self] at hc
    exact hk c hc
  · rw [Function.update_of_ne heq] at hc
    exact hrest k' c heq hc

section Steps

variable {s s' : State lcfg fcfg n m w}

theorem TokensHold.of_extends (h : TokensHold dev s) (hdisk : s.disk.Extends s'.disk)
    (hsockets : ∀ k c', s'.sockets k = some c' → c'.stage.Named dev s.disk) :
    TokensHold dev s' := by
  refine ⟨by rw [hdisk.inos]; exact h.distinct, ?_⟩
  intro k c' hc'
  exact (hsockets k c' hc').grows hdisk.grows (Or.inl hdisk.token)

theorem tokensHold_rename (h : TokensHold dev s) {ino : Nat}
    (hfresh : ∀ file ∈ s.disk.files, file.ino ≠ ino)
    (hbetween : ∀ k, (s.sockets k).any Socket.between = false) {bytes : Bytes}
    {compaction : Compaction m} :
    TokensHold dev { s with compaction := compaction, disk := s.disk.rename ino bytes } := by
  refine ⟨?_, ?_⟩
  · show ((s.disk.files ++ [(s.disk.rename ino bytes).log]).map LogFile.ino).Nodup
    rw [List.map_append, List.nodup_append]
    refine ⟨h.distinct, List.nodup_singleton _, ?_⟩
    intro a ha b hb heq
    obtain ⟨file, hfile, rfl⟩ := List.mem_map.mp ha
    rcases List.mem_singleton.mp hb with rfl
    exact hfresh file hfile heq
  · -- whoever has the old log open keeps it
    intro k c hc
    have hb := hbetween k
    rw [show s.sockets k = some c from hc] at hb
    exact (h.named k c hc).grows (s.disk.grows_rename ino bytes) (Or.inr hb)

/-- A follower changes nothing on the leader's side of a connection. -/
theorem tokensHold_followed (h : TokensHold dev s) {i : Fin n} {a : Follow m}
    (hs : Followed s i a s') : TokensHold dev s' := by
  cases hs with
  | connected hlink hfree =>
      refine h.of_extends (.refl _) (forall_update ?_ fun k c _ hc => h.named k c hc)
      rintro c ⟨rfl⟩
      exact trivial
  | @greeted k c line rest f hlink hc hnew hline hreply =>
      refine h.of_extends (.refl _) (forall_update ?_ fun k c _ hc => h.named k c hc)
      rintro _ ⟨rfl⟩
      exact h.named k c hc
  | refused hlink hc hnew hline hreply => exact h.of_extends (.refl _) h.named
  | @waited _ k c chunk rest f hlink hc hgreeted hchunk hreceive =>
      refine h.of_extends (.refl _) (forall_update ?_ fun k c _ hc => h.named k c hc)
      rintro _ ⟨rfl⟩
      exact h.named k c hc
  | @advanced _ k c chunk rest f offset hlink hc hgreeted hchunk hreceive =>
      refine h.of_extends (.refl _) (forall_update ?_ fun k c _ hc => h.named k c hc)
      rintro _ ⟨rfl⟩
      exact h.named k c hc
  | dropped hlink hc hgreeted hchunk hreceive => exact h.of_extends (.refl _) h.named
  | left hlink => exact h.of_extends (.refl _) h.named
  | killed count part keep => exact h.of_extends (.refl _) h.named

theorem tokensHold_compacted {a : Compact} (h : TokensHold dev s) (hfresh : Fresh s (.compact a))
    (hquiet : NoRenameInHandshake s (.compact a)) (hs : Compacted s a s') : TokensHold dev s' := by
  cases hs with
  | renamed hidle hwriters => exact tokensHold_rename h hfresh hquiet
  | reopened hstage => exact h.of_extends ⟨rfl, rfl, List.prefix_rfl, Nat.le_refl _⟩ h.named
  | listed hstage => exact h.of_extends (.refl _) h.named
  | stopped hstage =>
      refine h.of_extends (.refl _) (forall_update ?_ fun k c _ hc => h.named k c hc)
      intro c hc
      obtain ⟨c, hk, rfl⟩ := Option.map_eq_some_iff.mp hc
      exact named_stop (h.named _ c hk)
  | released hstage => exact h.of_extends (.refl _) h.named

theorem tokensHold_step {mode : ReplMode} {a : Act n m w} (h : TokensHold dev s)
    (hfresh : Fresh s a) (hquiet : NoRenameInHandshake s a) (hs : step dev mode s a = some s') :
    TokensHold dev s' := by
  cases a with
  | write t a =>
      obtain ⟨hdisk, hsockets, _⟩ := (stepWrite_effect hs).frame
      exact h.of_extends hdisk (hsockets ▸ h.named)
  | compact a => exact tokensHold_compacted h hfresh hquiet (stepCompact_effect hs)
  | sync =>
      rw [step] at hs
      split at hs
      · exact absurd hs (by simp)
      · cases hs
        exact h.of_extends ⟨rfl, rfl, List.prefix_rfl, Nat.le_refl _⟩ h.named
  | reap =>
      rw [step] at hs
      split at hs
      · exact absurd hs (by simp)
      · cases hs
        refine h.of_extends (.refl _) ?_
        intro k c hc
        obtain ⟨c, hk, rfl⟩ := Option.map_eq_some_iff.mp hc
        exact named_reap (h.named k c hk)
  | serve k a =>
      obtain ⟨c, c', hc, hserves, rfl⟩ := stepServe_effect hs
      refine h.of_extends (extends_socket_noteShipped c' s.disk)
        (forall_update ?_ fun k c _ hc => h.named k c hc)
      rintro _ ⟨rfl⟩
      exact named_serves (h.named k c hc) hserves
  | follow i a => exact tokensHold_followed h (stepFollow_effect hs)
  | crash torn keep =>
      rw [step] at hs
      split at hs
      · cases hs
        refine ⟨by simpa [Disk.files, Disk.restart] using h.distinct, ?_⟩
        -- every session ends with the process
        intro k c hc
        obtain ⟨c, _, rfl⟩ := Option.map_eq_some_iff.mp hc
        exact trivial
      · exact absurd hs (by simp)

theorem tokensHold_reachable {mode : ReplMode} {ino : Nat} {file : Bytes}
    (h : (system lcfg fcfg n m w dev mode ino file).ReachableBy
      (fun s a => Fresh s a ∧ NoRenameInHandshake s a) s) : TokensHold dev s := by
  refine h.invariant (I := TokensHold dev) ?_
    fun _ _ _ hi hok hs => tokensHold_step hi hok.1 hok.2 hs
  rintro s rfl
  exact ⟨List.nodup_singleton _, fun k c hc => absurd hc (by simp)⟩

end Steps

/-- What a session has shipped, byte for byte, is the one file that its token names. -/
def ShipsNamed (dev : Nat) (s : State lcfg fcfg n m w) (v : Served) : Prop :=
  ∃ file ∈ s.disk.files, file.token dev = v.token
    ∧ (∀ other ∈ s.disk.files, other.token dev = v.token → other = file)
    ∧ ∀ o, o < v.stream.length → v.stream[o]? = file.bytes[v.start + o]?

instance (dev : Nat) (s : State lcfg fcfg n m w) (v : Served) : Decidable (ShipsNamed dev s v) :=
  inferInstanceAs (Decidable (∃ file ∈ s.disk.files, _))

/--
**Logs are not mixed.** Where every log has a token of its own, and no compaction
renames between the token and the `open` of a handshake, a session ships the log
that its reply named, at the offsets it has there; whenever the compaction reopens
the log, or tells the sessions, and however long a session outlives it.
-/
theorem ships_named {mode : ReplMode} {ino : Nat} {file : Bytes} {s : State lcfg fcfg n m w}
    (h : (system lcfg fcfg n m w dev mode ino file).ReachableBy
      (fun s a => Fresh s a ∧ NoRenameInHandshake s a) s) {k : Fin m} {v : Served}
    (hv : s.sessions k = some v) : ShipsNamed dev s v := by
  obtain ⟨hdistinct, hnamed⟩ := tokensHold_reachable h
  obtain ⟨c, hc, hstage⟩ := sessions_some hv
  have hreads := hnamed k c hc
  rw [hstage] at hreads
  obtain ⟨file, hfile, htoken, _, hstream⟩ := hreads
  have hmem := List.mem_of_getElem? hfile
  refine ⟨file, hmem, htoken.symm, ?_, ?_⟩
  · intro other hother heq
    exact List.inj_on_of_nodup_map hdistinct hother hmem (replicationToken_inj (heq.trans htoken))
  · intro o ho
    obtain ⟨rest, hrest⟩ := hstream
    rw [← List.getElem?_drop, ← hrest, List.getElem?_append_left ho]

/-! Steps that come together, for runs on fixed inputs. -/

/-- A client thread writes. -/
def putSteps (t : Fin w) (op : Op) : List (Act n m w) :=
  [.write t (.enter op), .write t .append, .write t .apply, .write t .announce]

/-- The log is compacted, with so many sessions to stop. -/
def compactSteps (ino : Nat) (sessions : Nat) : List (Act n m w) :=
  [.compact (.rename ino), .compact .reopen, .compact .snapshot]
    ++ List.replicate sessions (.compact .stop) ++ [.compact .release]

/-- A session ships what there is, and rests. -/
def shipSteps (k : Fin m) : List (Act n m w) :=
  [.serve k .look, .serve k .check, .serve k (.ship 1000), .serve k .rest]

/-- The log is compacted when a session has opened it and is not registered. -/
theorem ships_named_outlived :
    ∃ s v, (system standalone standalone 1 1 1 1 .async 5 []).ReachableBy
        (fun s a => Fresh s a ∧ NoRenameInHandshake s a) s
      ∧ s.sessions 0 = some v ∧ v.stream.length = 19 ∧ v.file < s.disk.old.length
      ∧ ShipsNamed 1 s v := by
  obtain ⟨s, v, hreach, hv, hlen, hold⟩ := System.exists_reachableBy_some
    (g := fun s => s.sessions 0) (p := fun s v => v.stream.length = 19 ∧ v.file < s.disk.old.length)
    (show (system standalone standalone 1 1 1 1 .async 5 []).ReachableBy
      (fun s a => Fresh s a ∧ NoRenameInHandshake s a) _ from .init rfl)
    (putSteps 0 (.set [97] [49]) ++ putSteps 0 (.set [97] [50])
      ++ [.follow 0 (.connect 0), .serve 0 .identify, .serve 0 .reply, .serve 0 .openLog]
      ++ compactSteps 6 0 ++ [.serve 0 .register] ++ shipSteps 0)
    (by decide +kernel) (by decide +kernel)
  exact ⟨s, v, hreach, hv, hlen, hold, ships_named hreach hv⟩

/-- The log is compacted between the token and the `open`: the new log goes out as the old one. -/
theorem not_ships_named_renamed :
    ∃ s v, (system standalone standalone 1 1 1 1 .async 5 []).ReachableBy Fresh s
      ∧ s.sessions 0 = some v ∧ ¬ ShipsNamed 1 s v :=
  System.exists_reachableBy_some (.init rfl)
    (putSteps 0 (.set [97] [49]) ++ putSteps 0 (.set [97] [50])
      ++ [.follow 0 (.connect 0), .serve 0 .identify] ++ compactSteps 6 0
      ++ [.serve 0 .reply, .serve 0 .openLog, .serve 0 .register] ++ shipSteps 0)
    (by decide +kernel) (by decide +kernel)

end KvStore.Repl.Cluster
