import KvStore.Store.Meaning

/-!
# Opening a store

What a recovery leaves, in memory and in the file, and what the operations of the
opened store then append. A recovery is a replay, and a replay is a run of the
meaning over the records it kept, so nothing here looks inside a record.
-/

namespace KvStore

open Lib Wal Protocol

variable {cfg : StoreConfig}

/-- The store of the README's quick start, for runs on fixed inputs. -/
def standalone : StoreConfig := { hash := fun _ => 0, logPath := "/tmp/kvstore.log" }

/-- Records end to end. -/
abbrev frames (payloads : List Bytes) : Bytes := payloads.flatMap frame

/-- What the log found at a path means to a recovery. -/
def recovered (cfg : StoreConfig) (file : Bytes) : Meaning cfg.toMapConfig :=
  RecordApplier.meaning (recoverFromLog cfg file).state

/-- The mutations of the transaction a recovery finds open, and throws away. -/
def discarded (cfg : StoreConfig) (file : Bytes) : List Mutation :=
  ((recovered cfg file).txn.map Prod.snd).getD []

/-- **What any recovery did**: it ran a list of records, and kept exactly those. -/
theorem recover_spec (cfg : StoreConfig) (file : Bytes) :
    ∃ payloads : List Bytes, (∀ p ∈ payloads, p.length ≤ kMaxPayloadBytes)
      ∧ Meaning.run payloads (Meaning.init _) = some (recovered cfg file)
      ∧ (recoverFromLog cfg file).file = frames payloads
      ∧ (recoverFromLog cfg file).file <+: file := by
  obtain ⟨payloads, hv, hfold, hfile, hpre, _⟩ :=
    replay_run (@RecordApplier.onRecord cfg) ({}, {}) file
  exact ⟨payloads, hv, RecordApplier.run_of_foldlM hfold, hfile, hpre⟩

/-- A tail no recovery keeps: nothing, a record cut short, or a record that cannot follow. -/
def Dropped (r : Meaning cfg.toMapConfig) (tail : Bytes) : Prop :=
  tail = [] ∨ ∃ p rest, p.length ≤ kMaxPayloadBytes
    ∧ ((frame p = tail ++ rest ∧ rest ≠ []) ∨ (r.step p = none ∧ tail = frame p ++ rest))

/-- **Records that run are recovered, and the file is cut off behind them.** -/
theorem recover_frames {payloads : List Bytes} {tail : Bytes} {r : Meaning cfg.toMapConfig}
    (hv : ∀ p ∈ payloads, p.length ≤ kMaxPayloadBytes)
    (hrun : Meaning.run payloads (Meaning.init _) = some r) (htail : Dropped r tail) :
    recovered cfg (frames payloads ++ tail) = r
      ∧ (recoverFromLog cfg (frames payloads ++ tail)).file = frames payloads := by
  obtain ⟨s', hfold, hmean⟩ :=
    RecordApplier.foldlM_of_run (s := (({}, {}) : RecordApplier × Store cfg)) hrun
  have htail' : tail = [] ∨ ∃ p rest, (p.length ≤ kMaxPayloadBytes
      ∧ ((frame p = tail ++ rest ∧ rest ≠ [])
        ∨ (RecordApplier.onRecord s' p = none ∧ tail = frame p ++ rest))) := by
    refine htail.imp id ?_
    rintro ⟨p, rest, hp, hq | ⟨hrej, ht⟩⟩
    · exact ⟨p, rest, hp, Or.inl hq⟩
    · refine ⟨p, rest, hp, Or.inr ⟨?_, ht⟩⟩
      have := RecordApplier.apply_meaning s' p
      rw [hmean, hrej] at this
      exact Option.map_eq_none_iff.mp this
  obtain ⟨hst, hfile⟩ := replay_frames hv hfold htail'
  refine ⟨?_, hfile⟩
  unfold recovered recoverFromLog
  rw [hst, hmean]

/--
**A recovery settles the file.** Whatever bytes were at the path, what it leaves
there is a front part of them, and is exactly the records it applied. Recovering
from that does the same again, and finds nothing to complain about.
-/
theorem recover_settles (cfg : StoreConfig) (file : Bytes) :
    let r := recoverFromLog cfg file
    let r' := recoverFromLog cfg r.file
    (∃ payloads : List Bytes, payloads.foldlM RecordApplier.onRecord ({}, {}) = some r.state
        ∧ r.file = frames payloads ∧ r.result.recordsApplied = payloads.length)
      ∧ r.file <+: file
      ∧ (r.file = file ↔ r.result.truncated = false ∧ r.result.sawUnknownRecord = false)
      ∧ r.result.bytesConsumed = r.file.length
      ∧ r'.state = r.state ∧ r'.file = r.file
      ∧ r'.result.recordsApplied = r.result.recordsApplied
      ∧ r'.result.truncated = false ∧ r'.result.sawCorruption = false
      ∧ r'.result.sawUnknownRecord = false := by
  obtain ⟨payloads, hv, hfold, hfile, hpre, hcount, hbytes, _, hsame⟩ :=
    replay_run (@RecordApplier.onRecord cfg) ({}, {}) file
  obtain ⟨hst, hfile', hcount', htr, hco, hun⟩ := replay_whole hv hfold
  dsimp only
  refine ⟨⟨payloads, hfold, hfile, hcount⟩, hpre, hsame, hbytes, ?_⟩
  rw [show (recoverFromLog cfg file).file = payloads.flatMap frame from hfile]
  exact ⟨hst, hfile', hcount'.trans hcount.symm, htr, hco, hun⟩

theorem recoverFromLog_nil (cfg : StoreConfig) : (recoverFromLog cfg []).file = [] := rfl

/-! ## The opened store -/

section Opened

variable (hlog : cfg.logEnabled = true)

include hlog

theorem openOn_map (file : Bytes) : (Store.openOn cfg file).map = (recovered cfg file).map := by
  rw [Store.openOn, if_pos hlog]; rfl

theorem openOn_file (file : Bytes) :
    (Store.openOn cfg file).log.file = (recoverFromLog cfg file).file := by
  rw [Store.openOn, if_pos hlog]; rfl

theorem openOn_offset (file : Bytes) :
    (Store.openOn cfg file).log.offset = (Store.openOn cfg file).log.file.length := by
  rw [Store.openOn, if_pos hlog]; rfl

theorem openOn_discarded (file : Bytes) :
    (Store.openOn cfg file).recoveryDiscardedTransaction = (recovered cfg file).txn.isSome := by
  rw [Store.openOn, if_pos hlog]
  show (recoverFromLog cfg file).state.1.insideTransaction = _
  unfold recovered RecordApplier.meaning
  cases (recoverFromLog cfg file).state.1.insideTransaction <;> rfl

theorem openOn_recovery (file : Bytes) :
    (Store.openOn cfg file).recovery = (recoverFromLog cfg file).result := by
  rw [Store.openOn, if_pos hlog]

end Opened

/-- A recovery that neither truncates nor refuses leaves the file as it found it. -/
theorem recover_file_eq {file : Bytes} (h1 : (recoverFromLog cfg file).result.truncated = false)
    (h2 : (recoverFromLog cfg file).result.sawUnknownRecord = false) :
    (recoverFromLog cfg file).file = file := by
  unfold recoverFromLog replay at h1 h2 ⊢
  dsimp only at h1 h2 ⊢
  rw [h1, h2]
  rfl

/-! ## What operations append -/

@[simp] theorem writeAll_nil (file data : Bytes) :
    writeAll [] file data = (file ++ data, true) := by
  cases data with
  | nil => rw [writeAll, List.append_nil]
  | cons b data => rfl

/-- An append without errors. -/
theorem write_ok (mode : FsyncMode) (log : WriteAheadLog) (blob : Bytes) (records : Nat) :
    ∃ log', log.write mode blob records {} = (log', .ok (log.offset + blob.length))
      ∧ log'.file = log.file ++ blob ∧ log'.offset = log.offset + blob.length := by
  unfold WriteAheadLog.write
  rw [writeAll_nil]
  dsimp only
  cases mode
  · exact ⟨_, rfl, rfl, rfl⟩
  · exact ⟨_, rfl, rfl, rfl⟩
  · exact ⟨_, rfl, rfl, rfl⟩

/-- An operation that logs nothing is an empty commit, and changes nothing. -/
theorem perform_empty (st : Store cfg) {op : Op} (io : Io) (h : op.payloads = []) :
    (st.perform op io).2 = true ∧ (st.perform op io).1.log = st.log
      ∧ (st.perform op io).1.map = st.map ∧ op.updates = [] ∧ op.applyTo st.map = st.map := by
  cases op with
  | set key value => exact absurd h (List.cons_ne_nil _ _)
  | del key => exact absurd h (List.cons_ne_nil _ _)
  | commitTransaction txnId mutations =>
      have hnil : mutations = [] := by
        by_contra hne
        rw [Op.payloads, if_neg hne] at h
        exact absurd h (List.cons_ne_nil _ _)
      subst hnil
      exact ⟨rfl, rfl, rfl, rfl, ShardedMap.applyAtomically_nil _⟩

/-- An operation's append is one write of its records. -/
theorem append_eq_write (mode : FsyncMode) (log : WriteAheadLog) {op : Op} (io : Io)
    (hne : op.payloads ≠ []) :
    op.append mode log io = log.write mode op.bytes op.payloads.length io := by
  cases op with
  | set key value => simp [Op.append, Op.bytes, Op.payloads, WriteAheadLog.append]
  | del key => simp [Op.append, Op.bytes, Op.payloads, WriteAheadLog.append]
  | commitTransaction txnId mutations =>
      have hpay : (Op.commitTransaction txnId mutations).payloads
          = Store.transactionPayloads txnId mutations := by
        refine if_neg fun hnil => hne ?_
        rw [Op.payloads, if_pos hnil]
      rw [hpay] at hne
      rw [Op.append, Op.bytes, hpay, WriteAheadLog.appendBatch, if_neg hne]

/-- An append without errors, of any operation. -/
theorem append_ok (mode : FsyncMode) (log : WriteAheadLog) (op : Op) :
    ∃ log' blob, op.append mode log {} = (log', .ok (log.offset + blob.length))
      ∧ log'.file = log.file ++ blob ∧ log'.offset = log.offset + blob.length
      ∧ (op.payloads ≠ [] → blob = op.bytes) := by
  by_cases hnil : op.payloads = []
  · cases op with
    | set key value => exact absurd hnil (List.cons_ne_nil _ _)
    | del key => exact absurd hnil (List.cons_ne_nil _ _)
    | commitTransaction txnId mutations =>
        obtain ⟨log', hw, hfile, hoff⟩ := write_ok mode log
          ((Store.transactionPayloads txnId mutations).flatMap frame)
          (Store.transactionPayloads txnId mutations).length
        have hcons : Store.transactionPayloads txnId mutations ≠ [] := List.cons_ne_nil _ _
        refine ⟨log', _, ?_, hfile, hoff, fun hne => absurd hnil hne⟩
        rw [Op.append, WriteAheadLog.appendBatch, if_neg hcons, hw]
  · obtain ⟨log', hw, hfile, hoff⟩ := write_ok mode log op.bytes op.payloads.length
    exact ⟨log', op.bytes, by rw [append_eq_write _ _ _ hnil, hw], hfile, hoff, fun _ => rfl⟩

/-- **An operation appends, and then changes the map if that succeeded.** -/
theorem perform_append (hlog : cfg.logEnabled = true) (st : Store cfg) {op : Op} (io : Io)
    (hne : op.payloads ≠ []) :
    let w := op.append cfg.fsyncMode st.log io
    (st.perform op io).1.log = w.1 ∧ (st.perform op io).2 = w.2.isOk
      ∧ (st.perform op io).1.map = if w.2.isOk then op.applyTo st.map else st.map := by
  cases op with
  | set key value =>
      unfold Op.append Store.perform Store.set
      dsimp only
      rw [if_pos hlog]
      rcases st.log.append cfg.fsyncMode (Command.set key value).serialize io with ⟨log, _ | _⟩
      · exact ⟨rfl, rfl, rfl⟩
      · exact ⟨rfl, rfl, rfl⟩
  | del key =>
      unfold Op.append Store.perform Store.del
      dsimp only
      rw [if_pos hlog]
      rcases st.log.append cfg.fsyncMode (Command.del key).serialize io with ⟨log, _ | _⟩
      · exact ⟨rfl, rfl, rfl⟩
      · exact ⟨rfl, rfl, rfl⟩
  | commitTransaction txnId mutations =>
      -- an empty transaction has no records
      have hnil : mutations ≠ [] := by
        intro h
        rw [Op.payloads, if_pos h] at hne
        exact hne rfl
      unfold Op.append Store.perform Store.commitTransaction
      dsimp only
      rw [if_neg hnil, if_pos hlog]
      rcases st.log.appendBatch cfg.fsyncMode (Store.transactionPayloads txnId mutations) io with
        ⟨log, _ | _⟩
      · exact ⟨rfl, rfl, rfl⟩
      · exact ⟨rfl, rfl, rfl⟩

/-- **An operation without errors** appends its records, changes the map, and is acknowledged. -/
theorem perform_ok (hlog : cfg.logEnabled = true) (st : Store cfg) (op : Op) :
    (st.perform op {}).2 = true
      ∧ (st.perform op {}).1.log.file = st.log.file ++ op.bytes
      ∧ (st.perform op {}).1.log.offset = st.log.offset + op.bytes.length
      ∧ (st.perform op {}).1.map = op.applyTo st.map := by
  by_cases hnil : op.payloads = []
  · obtain ⟨h1, h2, h3, _, h4⟩ := perform_empty st {} hnil
    have hb : op.bytes = [] := by rw [Op.bytes, hnil]; rfl
    rw [h1, h2, h3, h4, hb]
    exact ⟨rfl, by simp, by simp, rfl⟩
  · obtain ⟨h1, h2, h3⟩ := perform_append hlog st {} hnil
    rw [append_eq_write _ _ _ hnil] at h1 h2 h3
    obtain ⟨log', hw, hfile, hoff⟩ := write_ok cfg.fsyncMode st.log op.bytes op.payloads.length
    rw [hw] at h1 h2 h3
    rw [h1, h2, h3, hfile, hoff]
    exact ⟨rfl, rfl, rfl, rfl⟩

theorem frames_append (ps qs : List Bytes) : frames (ps ++ qs) = frames ps ++ frames qs :=
  List.flatMap_append

theorem frames_pos {payloads : List Bytes} (h : payloads ≠ []) : 0 < (frames payloads).length := by
  cases payloads with
  | nil => exact absurd rfl h
  | cons p ps =>
      rw [frames, List.flatMap_cons, List.length_append, length_frame, kHeaderBytes]
      omega

theorem bytes_pos {op : Op} (h : op.payloads ≠ []) : 0 < op.bytes.length := frames_pos h

theorem frames_flatMap (ops : List Op) :
    ops.flatMap Op.bytes = frames (ops.flatMap Op.payloads) := by
  rw [frames, List.flatMap_assoc]
  rfl

theorem performAll_ok (hlog : cfg.logEnabled = true) (ops : List Op) (st : Store cfg) :
    (st.performAll ops).log.file = st.log.file ++ ops.flatMap Op.bytes
      ∧ (st.performAll ops).log.offset = st.log.offset + (ops.flatMap Op.bytes).length
      ∧ (st.performAll ops).map = Meaning.applyOps ops st.map := by
  induction ops generalizing st with
  | nil => exact ⟨by simp [Store.performAll], by simp [Store.performAll], rfl⟩
  | cons op ops ih =>
      obtain ⟨_, h1, h2, h3⟩ := perform_ok hlog st op
      obtain ⟨i1, i2, i3⟩ := ih (st.perform op {}).1
      have hcons : st.performAll (op :: ops) = (st.perform op {}).1.performAll ops := rfl
      rw [hcons, i1, i2, i3, h1, h2, h3, List.flatMap_cons, List.length_append]
      exact ⟨by rw [List.append_assoc], by omega, rfl⟩

end KvStore
