import KvStore.Repl.Follower
import KvStore.Proof.FailedAppend

/-!
# What one read of the link does to a follower

Whatever bytes arrive, the follower splits off whole records, remembers them, and
keeps the rest. When its own flag says that no transaction is open it writes what
it remembered to its log and hands it to the applier, record by record.

The flag is not the applier's. It follows the markers whatever else is between
them, while the applier also refuses what cannot follow. On records that the
applier accepts the two agree (`run_flag`).
-/

namespace KvStore.Repl

open Lib Wal Protocol

variable {cfg : StoreConfig}

/-! ## The flag -/

/-- What a record does to the follower's flag. -/
def flag (inside : Bool) (payload : Bytes) : Bool :=
  if (parseBeginMarker payload).isSome then true
  else if (parseCommitMarker payload).isSome then false
  else inside

/-- The flag follows the meaning, one record at a time. -/
theorem step_flag {cfg : MapConfig} {s r : Meaning cfg} {payload : Bytes}
    (h : s.step payload = some r) : r.txn.isSome = flag s.txn.isSome payload := by
  unfold Meaning.step decode at h
  unfold flag
  cases hb : parseBeginMarker payload with
  | some txnId =>
      rw [hb] at h
      simp only [Option.bind_some, Meaning.stepRecord] at h
      split at h
      · injection h with h; rw [← h]; rfl
      · exact absurd h (by simp)
  | none =>
      rw [hb] at h
      cases hc : parseCommitMarker payload with
      | some txnId =>
          rw [hc] at h
          simp only [Option.bind_some, Meaning.stepRecord] at h
          split at h
          · exact absurd h (by simp)
          · split at h
            · injection h with h; rw [← h]; rfl
            · exact absurd h (by simp)
      -- a command leaves the flag as it is
      | none =>
          rw [hc] at h
          cases hd : deserializeCommand payload with
          | none => rw [hd] at h; exact absurd h (by simp)
          | some c =>
              rw [hd] at h
              simp only [Option.map_some, Option.bind_some, Meaning.stepRecord] at h
              split at h
              · rename_i htxn
                injection h with h; rw [← h, htxn]; rfl
              · rename_i htxn
                injection h with h; rw [← h, htxn]; rfl

theorem run_flag {cfg : MapConfig} {payloads : List Bytes} {s r : Meaning cfg}
    (h : Meaning.run payloads s = some r) : r.txn.isSome = payloads.foldl flag s.txn.isSome := by
  induction payloads generalizing s with
  | nil =>
      rw [Meaning.run_nil] at h
      rw [Option.some.inj h]
      rfl
  | cons p ps ih =>
      rw [Meaning.run_cons] at h
      obtain ⟨s1, h1, h2⟩ := Option.bind_eq_some_iff.mp h
      rw [ih h2, step_flag h1, List.foldl_cons]

/-! ## Splitting off records -/

namespace Follower

/-- Take records in, whatever their size. -/
def noteAll (f : Follower cfg) (payloads : List Bytes) : Follower cfg := payloads.foldl note f

theorem noteAll_eq (f : Follower cfg) (payloads : List Bytes) :
    f.noteAll payloads =
      { f with
        insideTransaction := payloads.foldl flag f.insideTransaction
        pendingBytes := (f.noteAll payloads).pendingBytes
        pending := f.pending ++ payloads } := by
  induction payloads generalizing f with
  | nil => simp [noteAll]
  | cons p ps ih =>
      have hcons : f.noteAll (p :: ps) = (f.note p).noteAll ps := rfl
      rw [hcons, ih (f.note p)]
      simp [note, flag]

/-- The loop splits off whole records, or gives the link up. -/
theorem consumeLoop_spec (buffer : Bytes) (fuel offset : Nat) (f : Follower cfg)
    (hle : offset ≤ buffer.length) :
    (∃ payloads rest, (∀ p ∈ payloads, p.length ≤ kMaxPayloadBytes)
        ∧ buffer.drop offset = frames payloads ++ rest
        ∧ consumeLoop buffer fuel offset f
          = .ok (f.noteAll payloads, buffer.length - rest.length))
      ∨ consumeLoop buffer fuel offset f = .error .corrupt
      ∨ consumeLoop buffer fuel offset f = .error .overLimit := by
  induction fuel generalizing offset f with
  | zero =>
      refine Or.inl ⟨[], buffer.drop offset, by simp, rfl, ?_⟩
      rw [consumeLoop, List.length_drop, Nat.sub_sub_self hle]
      rfl
  | succ fuel ih =>
      rw [consumeLoop]
      cases hp : parseRecord buffer offset with
      | incomplete =>
          refine Or.inl ⟨[], buffer.drop offset, by simp, rfl, ?_⟩
          rw [List.length_drop, Nat.sub_sub_self hle]
          rfl
      | corrupt => exact Or.inr (Or.inl rfl)
      | ok payload next =>
          dsimp only
          split
          · -- the limit is looked at behind every record
            exact Or.inr (Or.inr rfl)
          · obtain ⟨_, hnext, hend, _⟩ := parseRecord_ok hp
            have hparse := recordCode_parse_drop hle
            rw [hp] at hparse
            obtain ⟨hv, hdrop⟩ := recordCode.ok_frame hparse
            refine (ih next (f.note payload) hend).imp ?_ id
            rintro ⟨payloads, rest, h1, h2, h3⟩
            refine ⟨payload :: payloads, rest, ?_, ?_, h3⟩
            · intro p hpm
              rcases List.mem_cons.mp hpm with rfl | hpm
              · exact hv
              · exact h1 p hpm
            · rw [hdrop, h2]
              simp [frames, recordCode]

/-- The follower after it has split off `payloads` and kept `rest`. -/
def intake (f : Follower cfg) (payloads : List Bytes) (rest : Bytes) : Follower cfg :=
  { f.noteAll payloads with recvBuffer := rest }

section

variable (f : Follower cfg) (payloads : List Bytes) (rest : Bytes)

@[simp] theorem intake_store : (f.intake payloads rest).store = f.store := by
  rw [intake, noteAll_eq]

@[simp] theorem intake_applier : (f.intake payloads rest).applier = f.applier := by
  rw [intake, noteAll_eq]

@[simp] theorem intake_recvBuffer : (f.intake payloads rest).recvBuffer = rest := rfl

@[simp] theorem intake_pending : (f.intake payloads rest).pending = f.pending ++ payloads := by
  rw [intake, noteAll_eq]

@[simp] theorem intake_insideTransaction :
    (f.intake payloads rest).insideTransaction = payloads.foldl flag f.insideTransaction := by
  rw [intake, noteAll_eq]

@[simp] theorem intake_savedToken : (f.intake payloads rest).savedToken = f.savedToken := by
  rw [intake, noteAll_eq]

end

/-- Records were split off, and are flushed if the flag is down. -/
theorem receive_of_ok {f : Follower cfg} {chunk rest : Bytes} {payloads : List Bytes}
    (hsplit : f.recvBuffer ++ chunk = frames payloads ++ rest)
    (hok : consumeLoop (f.recvBuffer ++ chunk) (f.recvBuffer ++ chunk).length 0 f
      = .ok (f.noteAll payloads, (f.recvBuffer ++ chunk).length - rest.length)) (io : Io) :
    f.receive chunk io =
      if payloads.foldl flag f.insideTransaction = false ∧ f.pending ++ payloads ≠ [] then
        match (f.intake payloads rest).flushPending io with
        | (g, .error e) => (g, .error e)
        | (g, .ok _) => (g, .ok (some g.store.logOffset))
      else (f.intake payloads rest, .ok none) := by
  have hrest : (f.recvBuffer ++ chunk).drop ((f.recvBuffer ++ chunk).length - rest.length)
      = rest := by
    rw [hsplit, List.length_append, Nat.add_sub_cancel]
    exact List.drop_left
  unfold receive
  dsimp only
  rw [hok]
  dsimp only
  rw [hrest, ← intake_insideTransaction f payloads rest, ← intake_pending f payloads rest]
  rfl

/--
**One read, whatever it brought**: the link is given up for the sake of the bytes
alone, or whole records were taken in and then flushed if the flag is down.
-/
theorem receive_spec (f : Follower cfg) (chunk : Bytes) (io : Io) :
    (∃ e, (e = .corrupt ∨ e = .overLimit) ∧ f.receive chunk io = (f, .error e))
      ∨ ∃ payloads rest, (∀ p ∈ payloads, p.length ≤ kMaxPayloadBytes)
        ∧ f.recvBuffer ++ chunk = frames payloads ++ rest
        ∧ f.batch chunk
          = (if payloads.foldl flag f.insideTransaction = false then f.pending ++ payloads else [])
        ∧ f.receive chunk io =
          if payloads.foldl flag f.insideTransaction = false ∧ f.pending ++ payloads ≠ [] then
            match (f.intake payloads rest).flushPending io with
            | (g, .error e) => (g, .error e)
            | (g, .ok _) => (g, .ok (some g.store.logOffset))
          else (f.intake payloads rest, .ok none) := by
  rcases consumeLoop_spec (f.recvBuffer ++ chunk) (f.recvBuffer ++ chunk).length 0 f
      (Nat.zero_le _) with ⟨payloads, rest, hv, hsplit, hok⟩ | herr | herr
  · refine Or.inr ⟨payloads, rest, hv, hsplit, ?_, receive_of_ok hsplit hok io⟩
    unfold batch
    rw [hok, noteAll_eq]
  · exact Or.inl ⟨.corrupt, Or.inl rfl, by rw [receive, herr]⟩
  · exact Or.inl ⟨.overLimit, Or.inr rfl, by rw [receive, herr]⟩

/-! ## Flushing -/

theorem applyAll_of_foldlM {payloads : List Bytes} {s s' : RecordApplier × Store cfg}
    (h : payloads.foldlM RecordApplier.onRecord s = some s') :
    applyAll payloads s = (s', true) := by
  induction payloads generalizing s with
  | nil =>
      have : s = s' := by simpa using h
      rw [applyAll, this]
  | cons p ps ih =>
      rw [List.foldlM_cons] at h
      obtain ⟨s1, h1, h2⟩ := Option.bind_eq_some_iff.mp h
      have h1' : s.1.apply s.2 p = some s1 := h1
      rw [applyAll, h1']
      exact ih h2

/-- A batch is appended as one write of its records. -/
theorem appendReplicatedRecords_eq (hlog : cfg.logEnabled = true) (st : Store cfg)
    {payloads : List Bytes} (hne : payloads ≠ []) (io : Io) :
    st.appendReplicatedRecords payloads io
      = ({ st with log := (st.log.write cfg.fsyncMode (frames payloads) payloads.length io).1 },
          (st.log.write cfg.fsyncMode (frames payloads) payloads.length io).2) := by
  rw [Store.appendReplicatedRecords, if_pos hlog, WriteAheadLog.appendBatch, if_neg hne]

/-- A batch of which not a byte is written leaves log and map as they were. -/
theorem flushPending_refused (hlog : cfg.logEnabled = true) (g : Follower cfg) {io : Io}
    (hne : g.pending ≠ []) (hzero : accepts io.writes (frames g.pending).length = 0) :
    ∃ store, g.flushPending io = ({ g with store := store }, .error .appendFailed)
      ∧ store.log.file = g.store.log.file ∧ store.log.offset = g.store.log.offset
      ∧ store.map = g.store.map := by
  have hpos : 0 < (frames g.pending).length := frames_pos hne
  obtain ⟨hok, hfile, hoffset⟩ :=
    write_accepts cfg.fsyncMode g.store.log (frames g.pending) g.pending.length io
  have hfail : ¬ Lands cfg.fsyncMode io (frames g.pending).length := by
    intro h
    have := h.1
    omega
  rw [decide_eq_false hfail] at hok
  rw [hzero, List.take_zero, List.append_nil] at hfile
  rw [if_neg (by omega)] at hoffset
  have happend := appendReplicatedRecords_eq hlog g.store hne io
  rcases hw : g.store.log.write cfg.fsyncMode (frames g.pending) g.pending.length io with
    ⟨log, e | n⟩
  · rw [hw] at hfile hoffset happend
    refine ⟨{ g.store with log := log }, ?_, hfile, hoffset, rfl⟩
    rw [flushPending, happend]
  · rw [hw] at hok
    exact absurd hok (by simp [Except.isOk, Except.toBool])

/--
**A batch that is written and accepted** is in the log and in memory, and nothing
is left over.
-/
theorem flushPending_ok (hlog : cfg.logEnabled = true) (g : Follower cfg) {io : Io}
    (hne : g.pending ≠ []) (hio : Lands cfg.fsyncMode io (frames g.pending).length)
    {r : Meaning cfg.toMapConfig}
    (hrun : Meaning.run g.pending (RecordApplier.meaning (g.applier, g.store)) = some r) :
    ∃ applier store, g.flushPending io
        = ({ g with applier := applier, store := store, pending := [], pendingBytes := 0 }, .ok ())
      ∧ store.log.file = g.store.log.file ++ frames g.pending
      ∧ store.log.offset = g.store.log.offset + (frames g.pending).length
      ∧ RecordApplier.meaning (applier, store) = r := by
  obtain ⟨hok, hfile, hoffset⟩ :=
    write_accepts cfg.fsyncMode g.store.log (frames g.pending) g.pending.length io
  rw [decide_eq_true hio] at hok
  rw [hio.1, List.take_length] at hfile
  rw [if_pos hio.1] at hoffset
  have happend := appendReplicatedRecords_eq hlog g.store hne io
  rcases hw : g.store.log.write cfg.fsyncMode (frames g.pending) g.pending.length io with
    ⟨log, e | n⟩
  · rw [hw] at hok
    exact absurd hok (by simp [Except.isOk, Except.toBool])
  · rw [hw] at hfile hoffset happend
    dsimp only at hfile hoffset happend
    have hrun' : Meaning.run g.pending
        (RecordApplier.meaning (g.applier, { g.store with log := log })) = some r := hrun
    obtain ⟨⟨applier, store⟩, hfold, hmean⟩ := RecordApplier.foldlM_of_run hrun'
    -- applying does not touch the log, so the offsets are compared with themselves
    have hlogs : store.log = log := RecordApplier.foldlM_log hfold
    have hn : n = store.logOffset := by
      rw [Store.logOffset, if_pos hlog, hlogs]
      exact write_offset hw
    refine ⟨applier, store, ?_, by rw [hlogs, hfile], by rw [hlogs, hoffset], hmean⟩
    rw [flushPending, happend]
    dsimp only
    rw [applyAll_of_foldlM hfold]
    dsimp only
    rw [if_neg (not_not_intro hn)]

theorem applyAll_log (payloads : List Bytes) (s : RecordApplier × Store cfg) :
    (applyAll payloads s).1.2.log = s.2.log := by
  induction payloads generalizing s with
  | nil => rfl
  | cons p ps ih =>
      rw [applyAll]
      split
      · rfl
      · rename_i s1 h1
        rw [ih, RecordApplier.onRecord_log h1]

/-- A batch reaches the log whole, whatever the applier makes of it. -/
theorem flushPending_log (hlog : cfg.logEnabled = true) (g : Follower cfg) (hne : g.pending ≠ []) :
    (g.flushPending {}).1.savedToken = g.savedToken
      ∧ (g.flushPending {}).1.recvBuffer = g.recvBuffer
      ∧ (g.flushPending {}).1.store.log.file = g.store.log.file ++ frames g.pending
      ∧ (g.flushPending {}).1.store.log.offset = g.store.log.offset + (frames g.pending).length
      ∧ ((g.flushPending {}).2 = .ok () → (g.flushPending {}).1.pending = []) := by
  obtain ⟨log, hw, hfile, hoffset⟩ :=
    write_ok cfg.fsyncMode g.store.log (frames g.pending) g.pending.length
  have happend := appendReplicatedRecords_eq hlog g.store hne {}
  rw [hw] at happend
  have hlogs := applyAll_log g.pending (g.applier, { g.store with log := log })
  unfold flushPending
  rw [happend]
  dsimp only
  rcases hall : applyAll g.pending (g.applier, { g.store with log := log }) with
    ⟨⟨applier, store⟩, _ | _⟩
  · -- a record was rejected, but all of them are in the log
    rw [hall] at hlogs
    dsimp only at hlogs ⊢
    rw [hlogs]
    exact ⟨rfl, rfl, hfile, hoffset, fun h => absurd h (by simp)⟩
  · rw [hall] at hlogs
    dsimp only at hlogs ⊢
    split
    · dsimp only
      rw [hlogs]
      exact ⟨rfl, rfl, hfile, hoffset, fun _ => rfl⟩
    · dsimp only
      rw [hlogs]
      exact ⟨rfl, rfl, hfile, hoffset, fun _ => rfl⟩

/--
**A read moves bytes along**, whatever they are: from the link to the buffer, to
the pending records, to the log. None is lost while the link is up, and what is
acknowledged is the log.
-/
theorem receive_log (hlog : cfg.logEnabled = true) (f : Follower cfg)
    (hoffset : f.store.log.offset = f.store.log.file.length) {chunk : Bytes} {g : Follower cfg}
    {r : Except Drop (Option Nat)} (h : f.receive chunk {} = (g, r)) :
    g.savedToken = f.savedToken ∧ g.store.log.offset = g.store.log.file.length
      ∧ f.store.log.file <+: g.store.log.file
      ∧ g.store.log.file <+: f.store.log.file ++ frames f.pending ++ f.recvBuffer ++ chunk
      ∧ (∀ o, r = .ok o → g.store.log.file ++ frames g.pending ++ g.recvBuffer
        = f.store.log.file ++ frames f.pending ++ f.recvBuffer ++ chunk)
      ∧ ∀ o, r = .ok (some o) → o = g.store.log.file.length := by
  rcases receive_spec f chunk {} with ⟨e, _, hrec⟩ | ⟨ps, rest, _, hsplit, _, hrec⟩
  · obtain ⟨rfl, rfl⟩ := Prod.mk.inj (hrec.symm.trans h)
    refine ⟨rfl, hoffset, List.prefix_rfl, ?_, fun o ho => absurd ho (by simp),
      fun o ho => absurd ho (by simp)⟩
    exact ⟨frames f.pending ++ f.recvBuffer ++ chunk, by simp⟩
  · have hbytes : f.store.log.file ++ frames f.pending ++ f.recvBuffer ++ chunk
        = f.store.log.file ++ frames (f.pending ++ ps) ++ rest := by
      rw [List.append_assoc _ f.recvBuffer, hsplit]
      simp [frames]
    rw [hbytes]
    by_cases hflush : ps.foldl flag f.insideTransaction = false ∧ f.pending ++ ps ≠ []
    · rw [if_pos hflush] at hrec
      obtain ⟨h1, h2, h3, h4, h5⟩ :=
        flushPending_log hlog (f.intake ps rest) (by simpa using hflush.2)
      rcases hf : (f.intake ps rest).flushPending {} with ⟨g', e | u⟩
      · -- the applier refuses a record of a batch that is in the log already
        rw [hf] at hrec h1 h2 h3 h4
        obtain ⟨rfl, rfl⟩ := Prod.mk.inj (hrec.symm.trans h)
        dsimp only at h1 h2 h3 h4
        rw [intake_store, intake_pending] at h3 h4
        refine ⟨by rw [h1, intake_savedToken], by rw [h4, h3, hoffset, List.length_append],
          by rw [h3]; exact List.prefix_append _ _, by rw [h3]; exact List.prefix_append _ _,
          fun o ho => absurd ho (by simp), fun o ho => absurd ho (by simp)⟩
      · rw [hf] at hrec h1 h2 h3 h4 h5
        obtain ⟨rfl, rfl⟩ := Prod.mk.inj (hrec.symm.trans h)
        dsimp only at h1 h2 h3 h4 h5
        rw [intake_store, intake_pending] at h3 h4
        have hoff : g'.store.log.offset = g'.store.log.file.length := by
          rw [h4, h3, hoffset, List.length_append]
        refine ⟨by rw [h1, intake_savedToken], hoff, by rw [h3]; exact List.prefix_append _ _,
          by rw [h3]; exact List.prefix_append _ _, ?_, ?_⟩
        · intro o _
          rw [h3, h5 rfl, h2, intake_recvBuffer]
          simp [frames]
        · intro o ho
          obtain rfl := Option.some.inj (Except.ok.inj ho)
          rw [Store.logOffset, if_pos hlog, hoff]
    · rw [if_neg hflush] at hrec
      obtain ⟨rfl, rfl⟩ := Prod.mk.inj (hrec.symm.trans h)
      refine ⟨intake_savedToken f ps rest, by rw [intake_store]; exact hoffset,
        ⟨[], by rw [intake_store, List.append_nil]⟩, ?_, ?_, fun o ho => absurd ho (by simp)⟩
      · rw [intake_store, List.append_assoc]
        exact List.prefix_append _ _
      · intro o _
        rw [intake_store, intake_pending, intake_recvBuffer]

/-- What a follower writes next comes from the stream. -/
theorem frames_batch (f : Follower cfg) (chunk : Bytes) :
    frames (f.batch chunk) <+: frames f.pending ++ f.recvBuffer ++ chunk := by
  unfold batch
  rcases consumeLoop_spec (f.recvBuffer ++ chunk) (f.recvBuffer ++ chunk).length 0 f
      (Nat.zero_le _) with ⟨ps, rest, _, hsplit, hok⟩ | herr | herr
  · rw [hok, noteAll_eq]
    dsimp only
    split
    · rw [List.drop_zero] at hsplit
      refine ⟨rest, ?_⟩
      rw [List.append_assoc _ f.recvBuffer, hsplit]
      simp [frames]
    · exact List.nil_prefix
  · rw [herr]; exact List.nil_prefix
  · rw [herr]; exact List.nil_prefix

end Follower

/-! ## Between two reads -/

/-- Nothing of the stream is kept. -/
def Idle (f : Follower cfg) : Prop :=
  f.recvBuffer = [] ∧ f.pending = [] ∧ f.insideTransaction = false

/-- What a follower remembers between two reads: nothing, or the beginning of a transaction. -/
structure Tidy (f : Follower cfg) : Prop where
  valid : ∀ p ∈ f.pending, p.length ≤ kMaxPayloadBytes
  flag : f.insideTransaction = f.pending.foldl flag false
  waits : f.pending ≠ [] → f.insideTransaction = true

theorem Idle.tidy {f : Follower cfg} (h : Idle f) : Tidy f := by
  obtain ⟨_, h2, h3⟩ := h
  exact ⟨by simp [h2], by rw [h2, h3]; rfl, fun hne => absurd h2 hne⟩

/-- The flag follows the records, also those that a read adds. -/
theorem Tidy.flag_append {f : Follower cfg} (h : Tidy f) (ps : List Bytes) :
    ps.foldl Repl.flag f.insideTransaction = (f.pending ++ ps).foldl Repl.flag false := by
  rw [List.foldl_append, ← h.flag]

/-- Records that are not flushed are kept, in good order. -/
theorem Tidy.intake {f : Follower cfg} (h : Tidy f) {ps : List Bytes} {tail : Bytes}
    (hv : ∀ p ∈ ps, p.length ≤ kMaxPayloadBytes)
    (hkeep : ¬ (ps.foldl Repl.flag f.insideTransaction = false ∧ f.pending ++ ps ≠ [])) :
    Tidy (f.intake ps tail) := by
  refine ⟨?_, ?_, ?_⟩
  · rw [Follower.intake_pending]
    exact List.forall_mem_append.mpr ⟨h.valid, hv⟩
  · rw [Follower.intake_insideTransaction, Follower.intake_pending]
    exact h.flag_append ps
  · rw [Follower.intake_pending, Follower.intake_insideTransaction]
    intro hne
    cases hup : ps.foldl Repl.flag f.insideTransaction with
    | true => rfl
    | false => exact absurd ⟨hup, hne⟩ hkeep

/-- A full resync without errors empties the map and the log. -/
theorem resetForFullResync_ok (hlog : cfg.logEnabled = true) (st : Store cfg) :
    st.resetForFullResync true true
      = ({ st with map := st.map.clear, log := { st.log with file := [], offset := 0 } },
        .ok ()) := by
  rw [Store.resetForFullResync, if_pos hlog]
  rfl

theorem Idle.batch {f : Follower cfg} (h : Idle f) : f.batch [] = [] := by
  obtain ⟨h1, h2, h3⟩ := h
  rw [Follower.batch, h1]
  show (if f.insideTransaction = false then f.pending else []) = []
  rw [if_pos h3, h2]

theorem idle_disconnect (f : Follower cfg) : Idle f.disconnect := ⟨rfl, rfl, rfl⟩

theorem meaning_abandon (a : RecordApplier) (st : Store cfg) :
    RecordApplier.meaning (a.abandonOpenTransaction, st) = { map := st.map } := rfl

end KvStore.Repl
