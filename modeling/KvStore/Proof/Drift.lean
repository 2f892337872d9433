import KvStore.Lib.Runs
import KvStore.Proof.Intake

/-!
# A follower and its own log

Here the peer is anybody: replies and bytes are arbitrary, connections end at any
time, and the system calls behind an append or a truncation may fail. The question
is whether the follower's memory is still what its own log says when it connects
again, for all it then tells the leader is how long that log is.

Both sides move in `flushPending` and in `resetForFullResync`, the log and the map
one after the other. Nothing puts the first back when the second fails.
-/

namespace KvStore.Repl

open Lib Wal Protocol

variable {cfg : StoreConfig}

/-! ## Maps that look the same -/

/-- Two meanings a reader cannot tell apart. -/
def Agrees {cfg : MapConfig} (s s' : Meaning cfg) : Prop :=
  s.map.contents = s'.map.contents ∧ s.txn = s'.txn

/-- With eviction off, what records do shows in what a reader sees. -/
theorem run_agrees {cfg : MapConfig} (hoff : cfg.maxMemoryBytes = 0) {payloads : List Bytes}
    {s s' r : Meaning cfg} (h : Agrees s s') (hs : Meaning.run payloads s = some r) :
    ∃ r', Meaning.run payloads s' = some r' ∧ Agrees r r' := by
  have halike : Meaning.Alike (fun m m' => m.contents = m'.contents) s s' := ⟨h.1, h.2⟩
  obtain ⟨r', hr', hmap, htxn⟩ := halike.run (fun op m m' hm => by
    rw [applyTo_contents hoff, applyTo_contents hoff, hm]) hs
  exact ⟨r', hr', hmap, htxn⟩

/-! ## A follower with any peer -/

namespace AnyPeer

/-- Where a follower is with its leader. -/
inductive Phase where
  /-- `linkLoop` is about to connect and send `SYNC`. -/
  | down
  | waiting
  | streaming
  deriving DecidableEq, Repr

/-- A follower, with a leader that may say anything. -/
structure State (cfg : StoreConfig) where
  follower : Follower cfg
  phase : Phase := .down

/-- What comes from the other side, and what the follower does next. -/
inductive Act where
  | connect
  /-- A reply arrives; the flags are the outcomes of a truncation, should it lead to one. -/
  | reply (line : Bytes) (truncateOk syncOk : Bool)
  /-- Bytes arrive; the script is for the append they may lead to. -/
  | read (chunk : Bytes) (io : Io)
  | drop
  deriving DecidableEq, Repr

/-- `linkLoop`, `runOneConnection` and `consume`, one read at a time. -/
def step (s : State cfg) : Act → Option (State cfg)
  | .connect =>
      match s.phase with
      | .down => some { s with phase := .waiting }
      | _ => none
  | .reply line truncateOk syncOk =>
      match s.phase with
      | .waiting =>
          match s.follower.onReply line truncateOk syncOk with
          | (f, .ok _) => some { follower := f, phase := .streaming }
          | (f, .error _) => some { follower := f.disconnect }
      | _ => none
  | .read chunk io =>
      match s.phase with
      | .streaming =>
          match s.follower.receive chunk io with
          | (f, .ok _) => some { follower := f, phase := .streaming }
          | (f, .error _) => some { follower := f.disconnect }
      | _ => none
  | .drop =>
      match s.phase with
      | .down => none
      | _ => some { follower := s.follower.disconnect }

/-- A follower started on `file`. -/
def system (cfg : StoreConfig) (file savedToken : Bytes) : System (State cfg) Act where
  init s := s = { follower := { store := Store.openOn cfg file, savedToken := savedToken } }
  step := step

/-- A failed append wrote nothing, and one that succeeded is of records the applier accepts. -/
def SoundAppend (f : Follower cfg) (payloads : List Bytes) (io : Io) : Prop :=
  if Lands cfg.fsyncMode io (frames payloads).length then
    (payloads.foldlM RecordApplier.onRecord (f.applier, f.store)).isSome = true
  else accepts io.writes (frames payloads).length = 0

/-- Every append of the step is sound, and every truncation succeeds. -/
def IoSucceeds (s : State cfg) : Act → Prop
  | .reply line truncateOk syncOk =>
      match parseReply line with
      | some (.full _) => truncateOk = true ∧ syncOk = true
      | _ => True
  | .read chunk io =>
      s.follower.batch chunk ≠ [] → SoundAppend s.follower (s.follower.batch chunk) io
  | _ => True

instance (f : Follower cfg) (payloads : List Bytes) (io : Io) :
    Decidable (SoundAppend f payloads io) := by
  unfold SoundAppend
  split <;> infer_instance

instance (s : State cfg) (a : Act) : Decidable (IoSucceeds s a) := by
  unfold IoSucceeds
  split
  · split <;> infer_instance
  · infer_instance
  · infer_instance

/--
Memory is what the log says, all of the log counts, and the follower knows how long
it is: a leader that goes on from there leaves nothing out.
-/
structure InStep (f : Follower cfg) : Prop where
  contents : f.store.map.contents = (Store.openOn cfg f.store.log.file).map.contents
  kept : (Store.openOn cfg f.store.log.file).log.file = f.store.log.file
  closed : (Store.openOn cfg f.store.log.file).recoveryDiscardedTransaction = false
  offset : f.store.logOffset = f.store.log.file.length

/-- The log is records that mean what is in memory, and no transaction is open. -/
structure LogMeansMemory (f : Follower cfg) (payloads : List Bytes) (r : Meaning cfg.toMapConfig) :
    Prop where
  valid : ∀ p ∈ payloads, p.length ≤ kMaxPayloadBytes
  file : f.store.log.file = frames payloads
  offset : f.store.log.offset = f.store.log.file.length
  run : Meaning.run payloads (Meaning.init _) = some r
  agrees : Agrees (RecordApplier.meaning (f.applier, f.store)) r
  closed : r.txn = none

theorem LogMeansMemory.inStep (hlog : cfg.logEnabled = true) {f : Follower cfg}
    {payloads : List Bytes}
    {r : Meaning cfg.toMapConfig} (h : LogMeansMemory f payloads r) : InStep f := by
  obtain ⟨hrec, hkept⟩ := recover_frames h.valid h.run (Or.inl rfl)
  rw [List.append_nil, ← h.file] at hrec hkept
  refine ⟨?_, by rw [openOn_file hlog, hkept], ?_, by rw [Store.logOffset, if_pos hlog, h.offset]⟩
  · rw [openOn_map hlog, hrec]
    exact h.agrees.1
  · rw [openOn_discarded hlog, hrec, h.closed]
    rfl

theorem LogMeansMemory.disconnect {f : Follower cfg} {payloads : List Bytes}
    {r : Meaning cfg.toMapConfig}
    (h : LogMeansMemory f payloads r) : LogMeansMemory f.disconnect payloads r :=
  ⟨h.valid, h.file, h.offset, h.run, ⟨h.agrees.1, h.closed.symm⟩, h.closed⟩

/-- What holds between two steps. -/
def Inv (s : State cfg) : Prop :=
  (∃ payloads r, LogMeansMemory s.follower payloads r) ∧ Tidy s.follower

theorem inv_disconnect {f : Follower cfg} (h : ∃ payloads r, LogMeansMemory f payloads r) :
    Inv { follower := f.disconnect } := by
  obtain ⟨payloads, r, h⟩ := h
  exact ⟨⟨payloads, r, h.disconnect⟩, (idle_disconnect f).tidy⟩

theorem inv_init (hlog : cfg.logEnabled = true) {file savedToken : Bytes}
    (hclosed : (Store.openOn cfg file).recoveryDiscardedTransaction = false) :
    Inv ({ follower := { store := Store.openOn cfg file, savedToken := savedToken } }
      : State cfg) := by
  obtain ⟨payloads, hv, hrun, hfile, _⟩ := recover_spec cfg file
  refine ⟨⟨payloads, recovered cfg file, hv, ?_, openOn_offset hlog file, hrun, ⟨?_, ?_⟩, ?_⟩, ?_⟩
  · rw [openOn_file hlog, hfile]
  · show (Store.openOn cfg file).map.contents = _
    rw [openOn_map hlog]
  · rw [openOn_discarded hlog] at hclosed
    rw [recovered_closed hclosed]
    rfl
  · rw [openOn_discarded hlog] at hclosed
    rw [recovered_closed hclosed]
  · exact Idle.tidy ⟨rfl, rfl, rfl⟩

theorem inv_reply (hlog : cfg.logEnabled = true) {s s' : State cfg} {line : Bytes}
    {truncateOk syncOk : Bool} (h : Inv s) (hok : IoSucceeds s (.reply line truncateOk syncOk))
    (hs : step s (.reply line truncateOk syncOk) = some s') : Inv s' := by
  obtain ⟨hbacked, htidy⟩ := h
  rw [step] at hs
  split at hs
  · rw [Follower.onReply] at hs
    rw [IoSucceeds] at hok
    cases hparse : parseReply line with
    | none =>
        rw [hparse] at hs
        cases hs
        exact inv_disconnect hbacked
    | some reply =>
        rw [hparse] at hs hok
        cases reply with
        | resume =>
            cases hs
            exact ⟨hbacked, htidy⟩
        | full leaderToken =>
            -- the log of a follower that starts over is that of an empty map
            obtain ⟨rfl, rfl⟩ := hok
            rw [resetForFullResync_ok hlog] at hs
            cases hs
            refine ⟨⟨[], Meaning.init _, by simp, rfl, rfl, rfl, ⟨?_, rfl⟩, rfl⟩,
              ⟨htidy.valid, htidy.flag, htidy.waits⟩⟩
            show s.follower.store.map.clear.contents = (ShardedMap.init _).contents
            rw [ShardedMap.contents_clear, ShardedMap.contents_init]
  · exact absurd hs (by simp)

/-- **Records that are written and accepted move both sides alike.** -/
theorem LogMeansMemory.flush (hoff : cfg.maxMemoryBytes = 0)
    {f g : Follower cfg} {payloads batch : List Bytes} {r : Meaning cfg.toMapConfig}
    (h : LogMeansMemory f payloads r) (hv : ∀ p ∈ batch, p.length ≤ kMaxPayloadBytes)
    {r' : Meaning cfg.toMapConfig}
    (hrun : Meaning.run batch (RecordApplier.meaning (f.applier, f.store)) = some r')
    (hflag : batch.foldl flag false = false)
    (hfile : g.store.log.file = f.store.log.file ++ frames batch)
    (hoffset : g.store.log.offset = f.store.log.offset + (frames batch).length)
    (hmean : RecordApplier.meaning (g.applier, g.store) = r') :
    ∃ r'', LogMeansMemory g (payloads ++ batch) r'' := by
  obtain ⟨r'', hrun'', hagree⟩ := run_agrees hoff h.agrees hrun
  refine ⟨r'', ?_, ?_, ?_, ?_, hmean ▸ hagree, ?_⟩
  · exact List.forall_mem_append.mpr ⟨h.valid, hv⟩
  · rw [hfile, h.file, frames_append]
  · rw [hoffset, hfile, List.length_append, h.offset]
  · rw [Meaning.run_append, h.run, Option.bind_some, hrun'']
  · -- the flag came down, so the applier is out of its transaction too
    have := run_flag hrun''
    rw [h.closed] at this
    exact Option.not_isSome_iff_eq_none.mp (by rw [this]; simpa using hflag)

theorem inv_read (hlog : cfg.logEnabled = true) (hoff : cfg.maxMemoryBytes = 0) {s s' : State cfg}
    {chunk : Bytes} {io : Io} (h : Inv s) (hok : IoSucceeds s (.read chunk io))
    (hs : step s (.read chunk io) = some s') : Inv s' := by
  obtain ⟨⟨payloads, r, hbacked⟩, htidy⟩ := h
  rw [step] at hs
  split at hs
  · rcases Follower.receive_spec s.follower chunk io with
      ⟨e, _, hrec⟩ | ⟨ps, tail, hv, hsplit, hbatch, hrec⟩
    · rw [hrec] at hs
      cases hs
      exact inv_disconnect ⟨payloads, r, hbacked⟩
    · have hflag := htidy.flag_append ps
      -- the batch is flushed when the flag is down and there is one
      by_cases hflush : ps.foldl flag s.follower.insideTransaction = false
          ∧ s.follower.pending ++ ps ≠ []
      · rw [if_pos hflush] at hrec
        rw [if_pos hflush.1] at hbatch
        have hsound := hok (by rw [hbatch]; exact hflush.2)
        rw [hbatch, SoundAppend] at hsound
        have hpend := Follower.intake_pending s.follower ps tail
        have hne : (s.follower.intake ps tail).pending ≠ [] := by rw [hpend]; exact hflush.2
        by_cases hlands : Lands cfg.fsyncMode io (frames (s.follower.pending ++ ps)).length
        · -- written, and accepted
          rw [if_pos hlands] at hsound
          obtain ⟨s1, hfold⟩ := Option.isSome_iff_exists.mp hsound
          have hrun := RecordApplier.run_of_foldlM hfold
          obtain ⟨applier, store, hflushed, hfile, hoffset, hmean⟩ :=
            Follower.flushPending_ok hlog (s.follower.intake ps tail) hne
              (by rw [hpend]; exact hlands)
              (r := RecordApplier.meaning s1) (by simpa using hrun)
          rw [hpend, Follower.intake_store] at hfile hoffset
          rw [hflushed] at hrec
          rw [hrec] at hs
          cases hs
          refine ⟨?_, ⟨by simp, ?_, by simp⟩⟩
          · obtain ⟨r', hr'⟩ := hbacked.flush hoff (List.forall_mem_append.mpr ⟨htidy.valid, hv⟩)
              hrun (hflag ▸ hflush.1)
              (g := { s.follower.intake ps tail with
                applier := applier, store := store, pending := [], pendingBytes := 0 })
              hfile hoffset hmean
            exact ⟨_, r', hr'⟩
          · show (s.follower.intake ps tail).insideTransaction = false
            rw [Follower.intake_insideTransaction, hflush.1]
        · -- not a byte was written
          rw [if_neg hlands] at hsound
          obtain ⟨store, hflushed, hfile, hoffset, hmap⟩ :=
            Follower.flushPending_refused hlog (s.follower.intake ps tail) hne
              (by rw [hpend]; exact hsound)
          rw [Follower.intake_store] at hfile hoffset hmap
          rw [hflushed] at hrec
          rw [hrec] at hs
          cases hs
          refine inv_disconnect ⟨payloads, r, hbacked.valid, ?_, ?_, hbacked.run, ⟨?_, ?_⟩,
            hbacked.closed⟩
          · exact hfile.trans hbacked.file
          · show store.log.offset = store.log.file.length
            rw [hoffset, hfile, hbacked.offset]
          · show store.map.contents = _
            rw [hmap]
            exact hbacked.agrees.1
          · show (RecordApplier.meaning ((s.follower.intake ps tail).applier, store)).txn = _
            rw [Follower.intake_applier]
            exact hbacked.agrees.2
      · -- nothing is flushed
        rw [if_neg hflush] at hrec
        rw [hrec] at hs
        cases hs
        refine ⟨⟨payloads, r, hbacked.valid, ?_, ?_, hbacked.run, ?_, hbacked.closed⟩,
          htidy.intake hv hflush⟩
        · rw [Follower.intake_store]; exact hbacked.file
        · rw [Follower.intake_store]; exact hbacked.offset
        · rw [Follower.intake_store, Follower.intake_applier]; exact hbacked.agrees
  · exact absurd hs (by simp)

theorem inv_step (hlog : cfg.logEnabled = true) (hoff : cfg.maxMemoryBytes = 0) {s s' : State cfg}
    {a : Act} (h : Inv s) (hok : IoSucceeds s a) (hs : step s a = some s') : Inv s' := by
  cases a with
  | connect =>
      rw [step] at hs
      split at hs
      · cases hs; exact h
      · exact absurd hs (by simp)
  | reply line truncateOk syncOk => exact inv_reply hlog h hok hs
  | read chunk io => exact inv_read hlog hoff h hok hs
  | drop =>
      rw [step] at hs
      split at hs
      · exact absurd hs (by simp)
      · cases hs; exact inv_disconnect h.1

theorem inv_reachable (hlog : cfg.logEnabled = true) (hoff : cfg.maxMemoryBytes = 0)
    {file savedToken : Bytes}
    (hclosed : (Store.openOn cfg file).recoveryDiscardedTransaction = false) {s : State cfg}
    (h : (system cfg file savedToken).ReachableBy IoSucceeds s) : Inv s := by
  refine h.invariant ?_ fun s a s' hi hok hs => inv_step hlog hoff hi hok hs
  rintro s rfl
  exact inv_init hlog hclosed

/--
**A follower has in memory what its log says**, whenever it is about to connect and
at every step in between, whatever it was sent and however its connections ended,
so long as every append wrote all of a batch that the applier accepts, or failed
before its first byte, and every truncation succeeded.
-/
theorem no_drift (hlog : cfg.logEnabled = true) (hoff : cfg.maxMemoryBytes = 0)
    {file savedToken : Bytes}
    (hclosed : (Store.openOn cfg file).recoveryDiscardedTransaction = false) {s : State cfg}
    (h : (system cfg file savedToken).ReachableBy IoSucceeds s) : InStep s.follower := by
  obtain ⟨⟨payloads, r, hbacked⟩, _⟩ := inv_reachable hlog hoff hclosed h
  exact hbacked.inStep hlog

/-- A full resync, a record, an append that fails at once, garbage, and the link is down again. -/
theorem no_drift_refused :
    ∃ s, (system standalone (frame (Command.del [98]).serialize) []).ReachableBy IoSucceeds s
      ∧ s.phase = .down ∧ s.follower.store.map.contents [97] = some [49] ∧ InStep s.follower := by
  obtain ⟨s, hreach, hdown, hkey⟩ := System.exists_reachableBy
    (p := fun s => s.phase = .down ∧ s.follower.store.map.contents [97] = some [49])
    (show (system standalone (frame (Command.del [98]).serialize) []).ReachableBy IoSucceeds _
      from .init rfl)
    [.connect, .reply (ascii "+FULL 1-2 0") true true,
      .read (frame (Command.set [97] [49]).serialize) {},
      .read (frame (Command.del [97]).serialize) { writes := [.failed] },
      .connect, .reply (ascii "+RESUME 1-2 19") true true,
      .read (frame (serializeBeginMarker 3) ++ [1]) {}, .read [0, 0, 255, 9, 9, 9, 9] {}]
    (by decide +kernel) (by decide +kernel)
  exact ⟨s, hreach, hdown, hkey, no_drift rfl rfl (by decide +kernel) hreach⟩

/-- A full resync clears the map, and then the truncation of the log fails. -/
theorem not_no_drift_truncation :
    ∃ s, (system standalone (frame (Command.set [97] [49]).serialize) (ascii "1-2")).Reachable s
      ∧ s.phase = .down ∧ s.follower.store.map.contents [97] = none
      ∧ (Store.openOn standalone s.follower.store.log.file).map.contents [97] = some [49] :=
  System.exists_reachableBy (.init rfl)
    [.connect, .reply (ascii "+FULL 1-3 0") false true] (by decide +kernel) (by decide +kernel)

end AnyPeer

end KvStore.Repl
