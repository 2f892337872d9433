import KvStore.Wal.Record

/-!
# The write-ahead log

`src/wal/wal.cpp`. The operating system is a script: what each `write` call of an
append returned, and whether the sync behind it succeeded. An empty script is an
append without errors, in one call.

The file is the bytes on disk, which a failed append may already have changed;
`offset` is what the process believes its length to be. They are two pieces of
state, as they are in the source.
-/

namespace KvStore.Wal

open Lib

/-- `FsyncMode`. -/
inductive FsyncMode where
  | always
  | interval
  | never
  deriving DecidableEq, Repr

/-- What the program calls a mode. -/
def fsyncModeName : FsyncMode → String
  | .always => "always"
  | .interval => "interval"
  | .never => "never"

/-- What one `write` call returned. A short count is not an error. -/
inductive SysWrite where
  | accepted (n : Nat)
  | interrupted
  | failed
  deriving DecidableEq, Repr

/-- What the operating system does to one append. -/
structure Io where
  /-- The results of the first `write` calls; any further call takes all it is given. -/
  writes : List SysWrite := []
  syncOk : Bool := true
  deriving DecidableEq, Repr

/-- Short writes and interruptions at most. -/
def Io.Clean (io : Io) : Prop := .failed ∉ io.writes ∧ io.syncOk = true

instance (io : Io) : Decidable io.Clean :=
  inferInstanceAs (Decidable (.failed ∉ io.writes ∧ io.syncOk = true))

/-- Which system call an exception of the log came from. -/
inductive LogError where
  | write
  | fsync
  | ftruncate
  | fsyncAfterTruncate
  deriving DecidableEq, Repr

/-- The file after the loop, and whether the loop ran to its end. -/
def writeAll : List SysWrite → Bytes → Bytes → Bytes × Bool
  | _, file, [] => (file, true)
  | [], file, data => (file ++ data, true)
  | .accepted n :: ws, file, data => writeAll ws (file ++ data.take n) (data.drop n)
  | .interrupted :: ws, file, data => writeAll ws file data
  | .failed :: _, file, _ => (file, false)

/-- The file of a log, and what is counted. -/
structure WriteAheadLog where
  /-- The bytes of the log file. -/
  file : Bytes := []
  offset : Nat := 0
  appends : Nat := 0
  syncs : Nat := 0
  bytesWritten : Nat := 0
  deriving DecidableEq, Repr

namespace WriteAheadLog

/-- The constructor: open for appending, and seek to the end. -/
def openAt (file : Bytes) : WriteAheadLog := { file := file, offset := file.length }

/-- What `append` and `appendBatch` do under the mutex. -/
def write (mode : FsyncMode) (log : WriteAheadLog) (blob : Bytes) (records : Nat) (io : Io) :
    WriteAheadLog × Except LogError Nat :=
  match writeAll io.writes log.file blob with
  | (file, false) => ({ log with file := file }, .error .write)
  | (file, true) =>
      let log := { log with
        file := file
        offset := log.offset + blob.length
        appends := log.appends + records
        bytesWritten := log.bytesWritten + blob.length }
      if mode = .always then
        if io.syncOk then ({ log with syncs := log.syncs + 1 }, .ok log.offset)
        else (log, .error .fsync)
      else (log, .ok log.offset)

/-- `WriteAheadLog::append`. -/
def append (mode : FsyncMode) (log : WriteAheadLog) (payload : Bytes) (io : Io) :
    WriteAheadLog × Except LogError Nat :=
  log.write mode (frame payload) 1 io

/-- `WriteAheadLog::appendBatch`. -/
def appendBatch (mode : FsyncMode) (log : WriteAheadLog) (payloads : List Bytes) (io : Io) :
    WriteAheadLog × Except LogError Nat :=
  if payloads = [] then (log, .ok log.offset)
  else log.write mode (payloads.flatMap frame) payloads.length io

/-- `truncateOk` and `syncOk` are the outcomes of the two system calls. -/
def truncateAll (log : WriteAheadLog) (truncateOk syncOk : Bool) :
    WriteAheadLog × Except LogError Unit :=
  if truncateOk then
    if syncOk then ({ log with file := [], offset := 0 }, .ok ())
    else ({ log with file := [] }, .error .fsyncAfterTruncate)
  else (log, .error .ftruncate)

/-- The path names another file by now. -/
def reopenAfterCompaction (log : WriteAheadLog) (file : Bytes) : WriteAheadLog :=
  { log with file := file, offset := file.length }

end WriteAheadLog

theorem writeAll_clean {ws : List SysWrite} (h : .failed ∉ ws) (file data : Bytes) :
    writeAll ws file data = (file ++ data, true) := by
  induction ws generalizing file data with
  | nil => cases data <;> simp [writeAll]
  | cons w ws ih =>
      have hws : SysWrite.failed ∉ ws := fun hm => h (List.mem_cons_of_mem _ hm)
      cases data with
      | nil => simp [writeAll]
      | cons b bs =>
          cases w with
          | accepted n => rw [writeAll, ih hws, List.append_assoc, List.take_append_drop]; simp
          | interrupted => rw [writeAll, ih hws]; simp
          | failed => exact absurd (List.mem_cons_self ..) h

theorem WriteAheadLog.write_clean {io : Io} (h : io.Clean) (mode : FsyncMode) (log : WriteAheadLog)
    (blob : Bytes) (records : Nat) :
    ∃ log' offset, log.write mode blob records io = (log', .ok offset) := by
  unfold WriteAheadLog.write
  rw [writeAll_clean h.1]
  dsimp only
  rw [if_pos h.2]
  split
  · exact ⟨_, _, rfl⟩
  · exact ⟨_, _, rfl⟩

theorem WriteAheadLog.append_clean {io : Io} (h : io.Clean) (mode : FsyncMode) (log : WriteAheadLog)
    (payload : Bytes) : ∃ log' offset, log.append mode payload io = (log', .ok offset) :=
  write_clean h mode log _ 1

theorem WriteAheadLog.appendBatch_clean {io : Io} (h : io.Clean) (mode : FsyncMode)
    (log : WriteAheadLog) (payloads : List Bytes) :
    ∃ log' offset, log.appendBatch mode payloads io = (log', .ok offset) := by
  unfold WriteAheadLog.appendBatch
  split
  · exact ⟨_, _, rfl⟩
  · exact write_clean h mode log _ _

/-! ## Replay -/

/-- `ReplayResult`. -/
structure ReplayResult where
  recordsApplied : Nat := 0
  bytesConsumed : Nat := 0
  fileBytes : Nat := 0
  truncated : Bool := false
  sawCorruption : Bool := false
  sawUnknownRecord : Bool := false
  deriving DecidableEq, Repr

section Replay

variable {σ : Type}

/--
The loop over the buffer. The callback keeps a state of its own and returns `none`
where the source's returns `false`; a callback that refuses a record leaves its
state alone. Every round consumes a header at least, so the buffer's length is
fuel enough.
-/
def replayLoop (onRecord : σ → Bytes → Option σ) (buffer : Bytes) :
    Nat → Nat → σ → ReplayResult → σ × ReplayResult
  | 0, offset, st, result => (st, { result with bytesConsumed := offset })
  | fuel + 1, offset, st, result =>
      if offset < buffer.length then
        match parseRecord buffer offset with
        | .incomplete => (st, { result with truncated := true, bytesConsumed := offset })
        | .corrupt =>
            (st, { result with truncated := true, sawCorruption := true, bytesConsumed := offset })
        | .ok payload nextOffset =>
            match onRecord st payload with
            | none => (st, { result with sawUnknownRecord := true, bytesConsumed := offset })
            | some st' =>
                replayLoop onRecord buffer fuel nextOffset st'
                  { result with recordsApplied := result.recordsApplied + 1 }
      else (st, { result with bytesConsumed := offset })

/-- A replay: the callback's state, the result, and the file it leaves. -/
structure Replayed (σ : Type) where
  state : σ
  result : ReplayResult
  file : Bytes

/-- `WriteAheadLog::replay`: the file is cut behind the last record that was taken. -/
def replay (onRecord : σ → Bytes → Option σ) (st : σ) (file : Bytes) : Replayed σ :=
  let r := replayLoop onRecord file file.length 0 st { fileBytes := file.length }
  { state := r.1
    result := r.2
    file := if r.2.truncated || r.2.sawUnknownRecord then file.take r.2.bytesConsumed else file }

/-! ## Replay is a scan -/

theorem replayLoop_scan (onRecord : σ → Bytes → Option σ) (buffer : Bytes) :
    ∀ (fuel offset : Nat) (st : σ) (result : ReplayResult),
      offset ≤ buffer.length → buffer.length - offset ≤ fuel →
      let sc := recordCode.scan onRecord st (buffer.drop offset)
      let r := replayLoop onRecord buffer fuel offset st result
      r.1 = sc.state ∧ r.2.bytesConsumed = buffer.length - sc.rest.length
        ∧ r.2.truncated = (result.truncated || decide (sc.stop = .cut ∨ sc.stop = .corrupt))
        ∧ r.2.sawCorruption = (result.sawCorruption || decide (sc.stop = .corrupt))
        ∧ r.2.sawUnknownRecord = (result.sawUnknownRecord || decide (sc.stop = .rejected)) := by
  intro fuel
  induction fuel with
  | zero =>
      intro offset st result hle hfuel
      -- no fuel is left only where no buffer is
      have hnil : buffer.drop offset = [] := List.drop_of_length_le (by omega)
      rw [hnil, FrameCode.scan_nil, replayLoop]
      refine ⟨rfl, ?_, by simp, by simp, by simp⟩
      simp only [List.length_nil]
      omega
  | succ fuel ih =>
      intro offset st result hle hfuel
      rw [replayLoop]
      by_cases hlt : offset < buffer.length
      · rw [if_pos hlt]
        have hne : buffer.drop offset ≠ [] := mt List.drop_eq_nil_iff.mp (Nat.not_le.mpr hlt)
        have hparse := recordCode_parse_drop hle
        have hrest : buffer.length - (buffer.drop offset).length = offset := by
          rw [List.length_drop]; omega
        cases hp : parseRecord buffer offset with
        | incomplete =>
            rw [hp] at hparse
            rw [FrameCode.scan_incomplete hne hparse]
            exact ⟨rfl, hrest.symm, by simp, by simp, by simp⟩
        | corrupt =>
            rw [hp] at hparse
            rw [FrameCode.scan_corrupt hne hparse]
            exact ⟨rfl, hrest.symm, by simp, by simp, by simp⟩
        | ok payload next =>
            rw [hp] at hparse
            rw [FrameCode.scan_ok hparse]
            obtain ⟨_, hnext, hend, _⟩ := parseRecord_ok hp
            dsimp only
            cases onRecord st payload with
            | none => exact ⟨rfl, hrest.symm, by simp, by simp, by simp⟩
            | some st' => exact ih next st' _ hend (by rw [kHeaderBytes] at hnext; omega)
      · rw [if_neg hlt]
        have hnil : buffer.drop offset = [] := List.drop_of_length_le (by omega)
        rw [hnil, FrameCode.scan_nil]
        refine ⟨rfl, ?_, by simp, by simp, by simp⟩
        simp only [List.length_nil]
        omega

/--
**What the loop did**, on any buffer: it fed records to the callback, all of them
accepted, and counted them; what it left unread is what made it stop.
-/
theorem replayLoop_run (onRecord : σ → Bytes → Option σ) (buffer : Bytes) :
    ∀ (fuel offset : Nat) (st : σ) (result : ReplayResult),
      offset ≤ buffer.length → buffer.length - offset ≤ fuel → result.truncated = false →
      result.sawCorruption = false → result.sawUnknownRecord = false →
      ∃ (payloads : List Bytes) (rest : Bytes), (∀ p ∈ payloads, p.length ≤ kMaxPayloadBytes)
        ∧ buffer.drop offset = payloads.flatMap frame ++ rest
        ∧ payloads.foldlM onRecord st = some (replayLoop onRecord buffer fuel offset st result).1
        ∧ (replayLoop onRecord buffer fuel offset st result).2.recordsApplied
          = result.recordsApplied + payloads.length
        ∧ (replayLoop onRecord buffer fuel offset st result).2.bytesConsumed
          = offset + (payloads.flatMap frame).length
        ∧ ((replayLoop onRecord buffer fuel offset st result).2.sawCorruption = true →
          (replayLoop onRecord buffer fuel offset st result).2.truncated = true)
        ∧ (rest = [] ↔ (replayLoop onRecord buffer fuel offset st result).2.truncated = false
          ∧ (replayLoop onRecord buffer fuel offset st result).2.sawUnknownRecord = false) := by
  intro fuel
  induction fuel with
  | zero =>
      intro offset st result hle hfuel htr hco hun
      have hnil : buffer.drop offset = [] := List.drop_of_length_le (by omega)
      refine ⟨[], [], by simp, by simp [hnil], rfl, rfl, rfl, ?_, ?_⟩
      · simp [replayLoop, hco]
      · simp [replayLoop, htr, hun]
  | succ fuel ih =>
      intro offset st result hle hfuel htr hco hun
      rw [replayLoop]
      by_cases hlt : offset < buffer.length
      · rw [if_pos hlt]
        have hne : buffer.drop offset ≠ [] := mt List.drop_eq_nil_iff.mp (Nat.not_le.mpr hlt)
        have hparse := recordCode_parse_drop hle
        cases hp : parseRecord buffer offset with
        -- the four ways to stop: two of the parser, one of the callback, and the end
        | incomplete => exact ⟨[], _, by simp, rfl, rfl, rfl, rfl, by simp, by simp [hne]⟩
        | corrupt => exact ⟨[], _, by simp, rfl, rfl, rfl, rfl, by simp, by simp [hne]⟩
        | ok payload next =>
            rw [hp] at hparse
            obtain ⟨hmax, hdrop⟩ := recordCode.ok_frame hparse
            obtain ⟨_, hnext, hend, _⟩ := parseRecord_ok hp
            dsimp only
            cases hcb : onRecord st payload with
            | none => exact ⟨[], _, by simp, rfl, rfl, rfl, rfl, by simp [hco], by simp [hne]⟩
            | some st' =>
                obtain ⟨payloads, rest, hv, hbuf, hfold, hcount, hbytes, hflags⟩ :=
                  ih next st' { result with recordsApplied := result.recordsApplied + 1 } hend
                    (by rw [kHeaderBytes] at hnext; omega) htr hco hun
                refine ⟨payload :: payloads, rest, ?_, ?_, ?_, ?_, ?_, hflags⟩
                · exact List.forall_mem_cons.mpr ⟨hmax, hv⟩
                · rw [hdrop, hbuf, List.flatMap_cons, List.append_assoc]
                  rfl
                · rw [List.foldlM_cons, hcb]
                  exact hfold
                · rw [hcount, List.length_cons, Nat.add_comm payloads.length, ← Nat.add_assoc]
                · rw [hbytes, List.flatMap_cons, List.length_append, length_frame, hnext]
                  omega
      · rw [if_neg hlt]
        have hnil : buffer.drop offset = [] := List.drop_of_length_le (by omega)
        exact ⟨[], [], by simp, by simp [hnil], rfl, rfl, rfl, by simp [hco], by simp [htr, hun]⟩

/--
**What any replay did.** It fed a list of records to the callback, all of them
accepted, and the file it leaves is exactly those records; the file is left as it
was exactly when nothing stopped the loop early.
-/
theorem replay_run (onRecord : σ → Bytes → Option σ) (st : σ) (file : Bytes) :
    ∃ payloads : List Bytes, (∀ p ∈ payloads, p.length ≤ kMaxPayloadBytes)
      ∧ payloads.foldlM onRecord st = some (replay onRecord st file).state
      ∧ (replay onRecord st file).file = payloads.flatMap frame
      ∧ (replay onRecord st file).file <+: file
      ∧ (replay onRecord st file).result.recordsApplied = payloads.length
      ∧ (replay onRecord st file).result.bytesConsumed = (replay onRecord st file).file.length
      ∧ ((replay onRecord st file).result.sawCorruption = true →
        (replay onRecord st file).result.truncated = true)
      ∧ ((replay onRecord st file).file = file ↔
        (replay onRecord st file).result.truncated = false
          ∧ (replay onRecord st file).result.sawUnknownRecord = false) := by
  obtain ⟨payloads, rest, hv, hbuf, hfold, hcount, hbytes, hcorrupt, hrest⟩ :=
    replayLoop_run onRecord file file.length 0 st { fileBytes := file.length } (by omega)
      (by omega) rfl rfl rfl
  rw [List.drop_zero] at hbuf
  rw [Nat.zero_add] at hcount hbytes
  have hfile : (replay onRecord st file).file = payloads.flatMap frame := by
    show (if _ then _ else _) = _
    split
    · -- `ftruncate` cuts the file behind the last record that was accepted
      rw [hbytes, hbuf]
      exact List.take_left
    · rename_i hno
      have hnil : rest = [] := hrest.mpr (by simpa using hno)
      rw [hnil, List.append_nil] at hbuf
      exact hbuf
  refine ⟨payloads, hv, hfold, hfile, ?_, hcount, ?_, hcorrupt, ?_⟩
  · rw [hfile]
    exact ⟨rest, hbuf.symm⟩
  · rw [hfile]
    exact hbytes
  · rw [hfile]
    refine Iff.trans ?_ hrest
    constructor
    · intro heq
      exact List.append_right_eq_self.mp (hbuf.symm.trans heq.symm)
    · intro hnil
      rw [hbuf, hnil, List.append_nil]

/-- Records the callback accepts are replayed, and what stops the loop behind them is cut off. -/
theorem replay_stopped {onRecord : σ → Bytes → Option σ} {st st' : σ} {payloads : List Bytes}
    {tail : Bytes} {stop : Stop} (hv : ∀ p ∈ payloads, p.length ≤ kMaxPayloadBytes)
    (hcb : payloads.foldlM onRecord st = some st')
    (hs : recordCode.scan onRecord st' tail = ⟨st', tail, stop⟩) (hstop : stop ≠ .done) :
    (replay onRecord st (payloads.flatMap frame ++ tail)).state = st'
      ∧ (replay onRecord st (payloads.flatMap frame ++ tail)).file = payloads.flatMap frame
      ∧ (replay onRecord st (payloads.flatMap frame ++ tail)).result.truncated
        = decide (stop = .cut ∨ stop = .corrupt)
      ∧ (replay onRecord st (payloads.flatMap frame ++ tail)).result.sawCorruption
        = decide (stop = .corrupt) := by
  obtain ⟨hst, hcons, htr, hco, hun⟩ :=
    replayLoop_scan onRecord (payloads.flatMap frame ++ tail)
      (payloads.flatMap frame ++ tail).length 0 st
      { fileBytes := (payloads.flatMap frame ++ tail).length } (by omega) (by omega)
  have hscan : recordCode.scan onRecord st ((payloads.flatMap frame ++ tail).drop 0)
      = recordCode.scan onRecord st' tail :=
    FrameCode.scan_frames (C := recordCode) tail hv hcb
  rw [hscan, hs] at hst hcons htr hco hun
  refine ⟨hst, ?_, htr, hco⟩
  show (if _ then _ else _) = _
  rw [if_pos (by rw [htr, hun]; cases stop <;> simp_all), hcons, List.length_append,
    Nat.add_sub_cancel]
  exact List.take_left

/-- Records the callback accepts are replayed, and the file is left alone up to them. -/
theorem replay_frames {onRecord : σ → Bytes → Option σ} {st st' : σ} {payloads : List Bytes}
    {tail : Bytes} (hv : ∀ p ∈ payloads, p.length ≤ kMaxPayloadBytes)
    (hcb : payloads.foldlM onRecord st = some st')
    (htail : tail = [] ∨ ∃ p rest, (p.length ≤ kMaxPayloadBytes
      ∧ ((frame p = tail ++ rest ∧ rest ≠ [])
        ∨ (onRecord st' p = none ∧ tail = frame p ++ rest)))) :
    (replay onRecord st (payloads.flatMap frame ++ tail)).state = st'
      ∧ (replay onRecord st (payloads.flatMap frame ++ tail)).file = payloads.flatMap frame := by
  by_cases hnil : tail = []
  · subst hnil
    obtain ⟨hst, _, htr, _, hun⟩ :=
      replayLoop_scan onRecord (payloads.flatMap frame ++ [])
        (payloads.flatMap frame ++ []).length 0 st
        { fileBytes := (payloads.flatMap frame ++ []).length } (by omega) (by omega)
    have hscan : recordCode.scan onRecord st ((payloads.flatMap frame ++ []).drop 0)
        = ⟨st', [], .done⟩ :=
      (FrameCode.scan_frames (C := recordCode) [] hv hcb).trans FrameCode.scan_nil
    rw [hscan] at hst htr hun
    refine ⟨hst, ?_⟩
    show (if _ then _ else _) = _
    rw [if_neg (by rw [htr, hun]; simp), List.append_nil]
  · obtain ⟨p, rest, hp, hcase⟩ := htail.resolve_left hnil
    rcases hcase with ⟨hq, hne⟩ | ⟨hrej, htail⟩
    · -- a record that is torn
      have hs : recordCode.scan onRecord st' tail = ⟨st', tail, .cut⟩ :=
        FrameCode.scan_cut (C := recordCode) hp hq hnil hne
      obtain ⟨hst, hfile, -⟩ := replay_stopped hv hcb hs (by simp)
      exact ⟨hst, hfile⟩
    · -- a record that the callback rejects
      have hs : recordCode.scan onRecord st' tail = ⟨st', tail, .rejected⟩ := by
        rw [htail]
        exact FrameCode.scan_reject (C := recordCode) rest hp hrej
      obtain ⟨hst, hfile, -⟩ := replay_stopped hv hcb hs (by simp)
      exact ⟨hst, hfile⟩

/-- The number of records a replay counts can be read off the file it leaves. -/
theorem replay_recordsApplied {onRecord : σ → Bytes → Option σ} {st : σ} {file : Bytes}
    {payloads : List Bytes} (hv : ∀ p ∈ payloads, p.length ≤ kMaxPayloadBytes)
    (hfile : (replay onRecord st file).file = payloads.flatMap frame) :
    (replay onRecord st file).result.recordsApplied = payloads.length := by
  obtain ⟨payloads', hv', _, hfile', _, hcount, -⟩ := replay_run onRecord st file
  -- the same bytes are the same records
  have heq : recordCode.frames payloads' = recordCode.frames payloads := hfile'.symm.trans hfile
  have hle := FrameCode.frames_prefix (C := recordCode) hv' hv (heq ▸ List.prefix_rfl)
  have hge := FrameCode.frames_prefix (C := recordCode) hv hv' (heq ▸ List.prefix_rfl)
  exact hcount.trans (Nat.le_antisymm hle.length_le hge.length_le)

/-- Records that are all accepted are replayed with nothing to report but their number. -/
theorem replay_whole {onRecord : σ → Bytes → Option σ} {st st' : σ} {payloads : List Bytes}
    (hv : ∀ p ∈ payloads, p.length ≤ kMaxPayloadBytes)
    (hcb : payloads.foldlM onRecord st = some st') :
    (replay onRecord st (payloads.flatMap frame)).state = st'
      ∧ (replay onRecord st (payloads.flatMap frame)).file = payloads.flatMap frame
      ∧ (replay onRecord st (payloads.flatMap frame)).result.recordsApplied = payloads.length
      ∧ (replay onRecord st (payloads.flatMap frame)).result.truncated = false
      ∧ (replay onRecord st (payloads.flatMap frame)).result.sawCorruption = false
      ∧ (replay onRecord st (payloads.flatMap frame)).result.sawUnknownRecord = false := by
  obtain ⟨hst, hfile⟩ := @replay_frames _ _ _ _ _ [] hv hcb (Or.inl rfl)
  rw [List.append_nil] at hst hfile
  obtain ⟨_, _, _, _, _, _, _, hcorrupt, hsame⟩ := replay_run onRecord st (payloads.flatMap frame)
  obtain ⟨htr, hun⟩ := hsame.mp hfile
  refine ⟨hst, hfile, replay_recordsApplied hv hfile, htr, ?_, hun⟩
  rw [← Bool.not_eq_true]
  intro hc
  rw [hcorrupt hc] at htr
  exact absurd htr (by simp)

end Replay

end KvStore.Wal
