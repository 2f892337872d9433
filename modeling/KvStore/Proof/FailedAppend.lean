import KvStore.Proof.Durability

/-!
# When an append fails

A `write` may take any part of a buffer before it fails, and the sync may fail
after all of it was taken. The caller is told of a failure in each case, and the
map is left alone. Nothing puts the file back.

What a call took of its buffer is decided by the script of its system calls, so
the question when a failed call leaves nothing behind is a question about scripts:
`noTrace_iff` says it is when the failure came before the first byte.
-/

namespace KvStore

open Lib Wal Protocol

variable {cfg : StoreConfig}

/-! ## What the system calls take -/

/-- How much of a buffer of `n` bytes the `write` calls take before one of them fails. -/
def accepts : List SysWrite → Nat → Nat
  | _, 0 => 0
  | [], n => n
  | .accepted k :: ws, n => min k n + accepts ws (n - k)
  | .interrupted :: ws, n => accepts ws n
  | .failed :: _, _ => 0

@[simp] theorem accepts_nil (n : Nat) : accepts [] n = n := by
  cases n <;> rfl

theorem accepts_le (ws : List SysWrite) (n : Nat) : accepts ws n ≤ n := by
  fun_induction accepts ws n with
  | case1 => omega
  | case2 => omega
  | case3 k ws n _ ih => omega
  | case4 ws n _ ih => exact ih
  | case5 => omega

/-- The loop appends what the calls take, and ends well when that is everything. -/
theorem writeAll_accepts (ws : List SysWrite) (file data : Bytes) :
    writeAll ws file data
      = (file ++ data.take (accepts ws data.length),
          decide (accepts ws data.length = data.length)) := by
  induction ws generalizing file data with
  | nil => cases data <;> simp [writeAll]
  | cons w ws ih =>
      cases data with
      | nil => simp [writeAll, accepts]
      | cons b data =>
          cases w with
          | accepted k =>
              -- a short count: the loop goes on with what is left
              have hle := accepts_le ws ((b :: data).length - k)
              rw [writeAll, ih, List.length_drop]
              · have hstep : accepts (.accepted k :: ws) (b :: data).length
                    = min k (b :: data).length + accepts ws ((b :: data).length - k) := rfl
                rw [hstep, List.append_assoc]
                refine Prod.ext ?_ ?_
                · rw [List.take_add, ← List.take_eq_take_min, ← List.drop_eq_drop_min]
                · exact decide_eq_decide.mpr (by omega)
              · simp
          | interrupted =>
              rw [writeAll, ih]
              · rfl
              · simp
          | failed =>
              simp [writeAll, accepts]

/-- The system calls take the whole of `n` bytes, and sync them where that is asked for. -/
def Lands (mode : FsyncMode) (io : Io) (n : Nat) : Prop :=
  accepts io.writes n = n ∧ (mode = .always → io.syncOk = true)

instance (mode : FsyncMode) (io : Io) (n : Nat) : Decidable (Lands mode io n) :=
  inferInstanceAs (Decidable (_ ∧ _))

/-- **What became of an append**, from what the system calls did to it. -/
theorem write_accepts (mode : FsyncMode) (log : WriteAheadLog) (blob : Bytes) (records : Nat)
    (io : Io) :
    (log.write mode blob records io).2.isOk
        = decide (Lands mode io blob.length)
      ∧ (log.write mode blob records io).1.file
        = log.file ++ blob.take (accepts io.writes blob.length)
      ∧ (log.write mode blob records io).1.offset
        = log.offset
          + if accepts io.writes blob.length = blob.length then blob.length else 0 := by
  have hlands : decide (Lands mode io blob.length)
      = decide (accepts io.writes blob.length = blob.length
        ∧ (mode = .always → io.syncOk = true)) :=
    decide_eq_decide.mpr Iff.rfl
  rw [hlands, WriteAheadLog.write, writeAll_accepts]
  by_cases hall : accepts io.writes blob.length = blob.length
  · rw [decide_eq_true hall, hall]
    -- all of it is in the file, and counted, also when the sync fails
    by_cases hmode : mode = .always
    · by_cases hsync : io.syncOk = true
      · simp [hmode, hsync, Except.isOk, Except.toBool]
      · simp [hmode, hsync, Except.isOk, Except.toBool]
    · simp [hmode, Except.isOk, Except.toBool]
  · rw [decide_eq_false hall]
    simp [hall, Except.isOk, Except.toBool]

/-- An append returns the offset it has come to. -/
theorem write_offset {mode : FsyncMode} {log log' : WriteAheadLog} {blob : Bytes} {records n : Nat}
    {io : Io} (h : log.write mode blob records io = (log', .ok n)) : n = log'.offset := by
  unfold WriteAheadLog.write at h
  split at h
  · exact absurd (congrArg Prod.snd h) (by simp)
  · dsimp only at h
    split at h
    · split at h
      · obtain ⟨rfl, hn⟩ := Prod.mk.inj h
        exact (Except.ok.inj hn).symm
      · exact absurd (congrArg Prod.snd h) (by simp)
    · obtain ⟨rfl, hn⟩ := Prod.mk.inj h
      exact (Except.ok.inj hn).symm

/-! ## Calls and their outcomes -/

/-- An operation, and what the operating system does to its append. -/
structure Call where
  op : Op
  io : Io := {}
  deriving DecidableEq, Repr

namespace Call

/-- How much of what the operation appends reaches the file. -/
def taken (c : Call) : Nat := accepts c.io.writes c.op.bytes.length

/-- Everything is written, and synced where that is asked for. -/
def Succeeds (mode : FsyncMode) (c : Call) : Prop :=
  c.op.payloads = [] ∨ Lands mode c.io c.op.bytes.length

instance (mode : FsyncMode) (c : Call) : Decidable (c.Succeeds mode) :=
  inferInstanceAs (Decidable (_ ∨ _))

theorem Succeeds.taken_eq {mode : FsyncMode} {c : Call} (h : c.Succeeds mode) :
    c.taken = c.op.bytes.length := by
  rcases h with hnil | ⟨hall, _⟩
  · simp [Call.taken, Op.bytes, hnil, accepts]
  · exact hall

end Call

/-- Run calls one after another; the second part is the operations that were acknowledged. -/
def Store.performCalls (st : Store cfg) : List Call → Store cfg × List Op
  | [] => (st, [])
  | c :: calls =>
      let r := st.perform c.op c.io
      let rest := r.1.performCalls calls
      (rest.1, if r.2 then c.op :: rest.2 else rest.2)

/-- **One call, whatever happens to it**: what it is told, what it leaves, what it counts. -/
theorem perform_call (hlog : cfg.logEnabled = true) (st : Store cfg) (c : Call) :
    (st.perform c.op c.io).2 = decide (c.Succeeds cfg.fsyncMode)
      ∧ (st.perform c.op c.io).1.log.file = st.log.file ++ c.op.bytes.take c.taken
      ∧ (st.perform c.op c.io).1.log.offset
        = st.log.offset + if c.taken = c.op.bytes.length then c.op.bytes.length else 0 := by
  by_cases hnil : c.op.payloads = []
  · obtain ⟨h1, h2, _⟩ := perform_empty st c.io hnil
    have hb : c.op.bytes = [] := by rw [Op.bytes, hnil]; rfl
    rw [h1, h2, hb]
    refine ⟨(decide_eq_true (Or.inl hnil)).symm, by simp, by simp⟩
  · obtain ⟨h1, h2, _⟩ := perform_append hlog st c.io hnil
    rw [append_eq_write _ _ _ hnil] at h1 h2
    obtain ⟨hok, hfile, hoffset⟩ :=
      write_accepts cfg.fsyncMode st.log c.op.bytes c.op.payloads.length c.io
    rw [h1, h2, hok, hfile, hoffset]
    refine ⟨decide_eq_decide.mpr ⟨Or.inr, fun h => h.resolve_left hnil⟩, rfl, rfl⟩

/-! ## The run -/

/-- The records a replay of the file hands over. -/
def recordsOf (file : Bytes) : List Bytes :=
  (replay (fun records p => some (records ++ [p])) [] file).state

theorem foldlM_concat (ps records : List Bytes) :
    ps.foldlM (fun records p => some (records ++ [p])) records = some (records ++ ps) := by
  induction ps generalizing records with
  | nil => simp
  | cons p ps ih =>
      rw [List.foldlM_cons, Option.bind_eq_bind, Option.bind_some, ih, List.append_assoc]
      rfl

/-- A replay hands over no record that is longer than the limit. -/
theorem recordsOf_le (file : Bytes) : ∀ p ∈ recordsOf file, p.length ≤ kMaxPayloadBytes := by
  obtain ⟨ps, hv, hfold, _⟩ := replay_run (fun records p => some (records ++ [p])) [] file
  rw [foldlM_concat] at hfold
  rw [recordsOf, ← Option.some.inj hfold]
  exact hv

theorem recordsOf_frames {ps : List Bytes} (hv : ∀ p ∈ ps, p.length ≤ kMaxPayloadBytes) :
    recordsOf (frames ps) = ps :=
  (replay_whole hv (foldlM_concat ps [])).1

/--
What a run owes its clients when some of its calls fail. The log holds what the
acknowledged operations appended and nothing else, and the process knows its
length; the next recovery finds what those operations did to the first one's map,
keeps the whole file, reads their records back, and buffers nothing of it.
-/
structure NoTrace (cfg : StoreConfig) (file : Bytes) (calls : List Call) : Prop where
  map : (Store.openOn cfg ((Store.openOn cfg file).performCalls calls).1.log.file).map
    = Meaning.applyOps ((Store.openOn cfg file).performCalls calls).2 (Store.openOn cfg file).map
  kept : (Store.openOn cfg ((Store.openOn cfg file).performCalls calls).1.log.file).log.file
    = ((Store.openOn cfg file).performCalls calls).1.log.file
  records : recordsOf ((Store.openOn cfg file).performCalls calls).1.log.file
    = recordsOf (Store.openOn cfg file).log.file
      ++ ((Store.openOn cfg file).performCalls calls).2.flatMap Op.payloads
  unbuffered : discarded cfg ((Store.openOn cfg file).performCalls calls).1.log.file
    = discarded cfg file
  untouched : ((Store.openOn cfg file).performCalls calls).1.log.file
    = (Store.openOn cfg file).log.file
      ++ ((Store.openOn cfg file).performCalls calls).2.flatMap Op.bytes
  offset : ((Store.openOn cfg file).performCalls calls).1.log.offset
    = ((Store.openOn cfg file).performCalls calls).1.log.file.length

/-- Who is acknowledged is decided by the scripts alone. -/
theorem performCalls_acknowledged (hlog : cfg.logEnabled = true) (st : Store cfg)
    (calls : List Call) :
    (st.performCalls calls).2
      = (calls.filter fun c => decide (c.Succeeds cfg.fsyncMode)).map Call.op := by
  induction calls generalizing st with
  | nil => rfl
  | cons c calls ih =>
      rw [Store.performCalls, (perform_call hlog st c).1, ih]
      by_cases hc : c.Succeeds cfg.fsyncMode
      · simp [hc]
      · simp [hc]

theorem mem_performCalls (hlog : cfg.logEnabled = true) {st : Store cfg} {calls : List Call}
    {op : Op} :
    op ∈ (st.performCalls calls).2 ↔ ∃ c ∈ calls, c.Succeeds cfg.fsyncMode ∧ c.op = op := by
  rw [performCalls_acknowledged hlog]
  simp [and_assoc]

/-- When every failure comes before the first byte, a run is that of its acknowledged calls. -/
theorem performCalls_clean (hlog : cfg.logEnabled = true) (st : Store cfg) {calls : List Call}
    (hclean : ∀ c ∈ calls, ¬ c.Succeeds cfg.fsyncMode → c.taken = 0) :
    (st.performCalls calls).1.log.file
        = st.log.file ++ (st.performCalls calls).2.flatMap Op.bytes
      ∧ (st.performCalls calls).1.log.offset
        = st.log.offset + ((st.performCalls calls).2.flatMap Op.bytes).length := by
  induction calls generalizing st with
  | nil => exact ⟨by simp [Store.performCalls], by simp [Store.performCalls]⟩
  | cons c calls ih =>
      obtain ⟨hack, hfile, hoffset⟩ := perform_call hlog st c
      obtain ⟨h1, h2⟩ := ih (st.perform c.op c.io).1
        (fun d hd => hclean d (List.mem_cons_of_mem _ hd))
      rw [Store.performCalls, hack]
      dsimp only
      rw [h1, h2, hfile, hoffset]
      by_cases hc : c.Succeeds cfg.fsyncMode
      · simp [hc, hc.taken_eq, Nat.add_assoc]
      · -- a call that took nothing is not counted either
        have hzero := hclean c (List.mem_cons_self ..) hc
        rw [hzero]
        have hsame : (if 0 = c.op.bytes.length then c.op.bytes.length else 0) = 0 := by
          split <;> omega
        simp [hc, hsame]

/--
The log grows by what each call took, acknowledged or not. If it has not grown by
more than the acknowledged calls account for, the others took nothing.
-/
theorem performCalls_length (hlog : cfg.logEnabled = true) (st : Store cfg) (calls : List Call) :
    st.log.file.length + ((st.performCalls calls).2.flatMap Op.bytes).length
        ≤ (st.performCalls calls).1.log.file.length
      ∧ ((st.performCalls calls).1.log.file.length
          = st.log.file.length + ((st.performCalls calls).2.flatMap Op.bytes).length →
        ∀ c ∈ calls, ¬ c.Succeeds cfg.fsyncMode → c.taken = 0) := by
  induction calls generalizing st with
  | nil => exact ⟨by simp [Store.performCalls], fun _ c hc => absurd hc List.not_mem_nil⟩
  | cons c calls ih =>
      obtain ⟨hack, hfile, _⟩ := perform_call hlog st c
      obtain ⟨h1, h2⟩ := ih (st.perform c.op c.io).1
      have hlen := congrArg List.length hfile
      have hle : c.taken ≤ c.op.bytes.length := accepts_le _ _
      rw [List.length_append, List.length_take, Nat.min_eq_left hle] at hlen
      rw [hlen] at h1 h2
      rw [Store.performCalls, hack]
      by_cases hc : c.Succeeds cfg.fsyncMode
      · have hall := hc.taken_eq
        simp only [hc, decide_true, if_true, List.flatMap_cons, List.length_append]
        refine ⟨by omega, fun hgrown d hd hfail => ?_⟩
        rcases List.mem_cons.mp hd with rfl | hd
        · exact absurd hc hfail
        · exact h2 (by omega) d hd hfail
      · -- what it took is in the log, and is not accounted for
        simp only [hc, decide_false, Bool.false_eq_true, if_false]
        refine ⟨by omega, fun hgrown d hd hfail => ?_⟩
        rcases List.mem_cons.mp hd with rfl | hd
        · omega
        · exact h2 (by omega) d hd hfail

/-- The log that is left by operations a replay can read. -/
theorem recordsOf_after (hlog : cfg.logEnabled = true) (file : Bytes) {ops : List Op}
    (hfit : ∀ op ∈ ops, op.Fits) :
    recordsOf (fileAfter cfg file ops)
      = recordsOf (Store.openOn cfg file).log.file ++ ops.flatMap Op.payloads := by
  obtain ⟨ps, hv, _, hfile, _⟩ := recover_spec cfg file
  have hall : ∀ p ∈ ps ++ ops.flatMap Op.payloads, p.length ≤ kMaxPayloadBytes :=
    List.forall_mem_append.mpr ⟨hv, payloads_le hfit⟩
  rw [fileAfter_eq hlog, openOn_file hlog, hfile, ← frames_append, recordsOf_frames hall,
    recordsOf_frames hv]

/--
**A failed append leaves no trace exactly when it failed before its first byte.**
A call that wrote something and then failed leaves a torn record, with everything
acknowledged behind it unreadable, or a whole operation that was never
acknowledged. (And the log has to be one that can be written behind at all, by
records that can be read again: `append` takes any length, `replay` does not.)
-/
theorem noTrace_iff (hlog : cfg.logEnabled = true) (file : Bytes) (calls : List Call) :
    NoTrace cfg file calls ↔
      (∀ c ∈ calls, ¬ c.Succeeds cfg.fsyncMode → c.taken = 0)
        ∧ (∀ c ∈ calls, c.Succeeds cfg.fsyncMode → c.op.Fits)
        ∧ ((Store.openOn cfg file).recoveryDiscardedTransaction = false
          ∨ ∀ c ∈ calls, c.Succeeds cfg.fsyncMode → c.op.payloads = []) := by
  -- a log that holds just the acknowledged operations is the log of a run of them
  have hafter : ((Store.openOn cfg file).performCalls calls).1.log.file
        = (Store.openOn cfg file).log.file
          ++ ((Store.openOn cfg file).performCalls calls).2.flatMap Op.bytes →
      ((Store.openOn cfg file).performCalls calls).1.log.file
        = fileAfter cfg file ((Store.openOn cfg file).performCalls calls).2 := by
    intro h
    rw [h, fileAfter, (performAll_ok hlog _ _).1]
  constructor
  · intro h
    have hsame := hafter h.untouched
    -- what was read back was short enough to be read
    have hfit : ∀ op ∈ ((Store.openOn cfg file).performCalls calls).2, op.Fits := by
      intro op hop p hp
      refine recordsOf_le ((Store.openOn cfg file).performCalls calls).1.log.file p ?_
      rw [h.records]
      exact List.mem_append_right _ (List.mem_flatMap_of_mem hop hp)
    refine ⟨(performCalls_length hlog (Store.openOn cfg file) calls).2 ?_, ?_, ?_⟩
    · rw [h.untouched, List.length_append]
    · intro c hc hsucc
      exact hfit c.op ((mem_performCalls hlog).mpr ⟨c, hc, hsucc, rfl⟩)
    · by_cases hclosed : (Store.openOn cfg file).recoveryDiscardedTransaction = false
      · exact Or.inl hclosed
      · -- behind an open transaction nothing that is logged comes back
        refine Or.inr fun c hc hsucc => ?_
        have hkept := h.kept
        have hbuf := h.unbuffered
        rw [hsame] at hkept hbuf
        exact empty_of_restored hlog hfit hclosed hkept hbuf c.op
          ((mem_performCalls hlog).mpr ⟨c, hc, hsucc, rfl⟩)
  · rintro ⟨hclean, hfits, hstart⟩
    have hfit : ∀ op ∈ ((Store.openOn cfg file).performCalls calls).2, op.Fits := by
      intro op hop
      obtain ⟨c, hc, hsucc, rfl⟩ := (mem_performCalls hlog).mp hop
      exact hfits c hc hsucc
    obtain ⟨hfile, hoffset⟩ := performCalls_clean hlog (Store.openOn cfg file) hclean
    have hsame := hafter hfile
    have hrestored : RecoversAppended cfg file ((Store.openOn cfg file).performCalls calls).2 := by
      rcases hstart with hclosed | hempty
      · exact recoversAppended_of_closed hlog hfit hclosed
      · refine recoversAppended_of_empty hlog file fun op hop => ?_
        obtain ⟨c, hc, hsucc, rfl⟩ := (mem_performCalls hlog).mp hop
        exact hempty c hc hsucc
    refine ⟨?_, ?_, ?_, ?_, hfile, ?_⟩
    · rw [hsame]; exact hrestored.map
    · rw [hsame]; exact hrestored.kept
    · rw [hsame]; exact recordsOf_after hlog file hfit
    · rw [hsame]; exact hrestored.unbuffered
    · rw [hoffset, hfile, List.length_append, openOn_offset hlog]

/-- A full disk refuses a write outright; the next one is acknowledged, and kept. -/
theorem noTrace_iff_refused :
    NoTrace standalone [] [{ op := .set [97] [49], io := { writes := [.interrupted, .failed] } },
      { op := .set [107] [118], io := { writes := [.accepted 3] } }] :=
  (noTrace_iff rfl [] _).mpr ⟨by decide, by decide, Or.inl rfl⟩

/--
Three bytes of a record are written before the disk is full. The next operation is
acknowledged, and is not there after a restart.
-/
theorem not_noTrace_torn :
    let r := (Store.openOn standalone []).performCalls
      [{ op := .set [97] [49], io := { writes := [.accepted 3, .failed] } },
        { op := .set [107] [118] }]
    r.2 = [.set [107] [118]]
      ∧ (Store.openOn standalone r.1.log.file).map
        ≠ Meaning.applyOps r.2 (Store.openOn standalone []).map
      ∧ r.1.log.offset ≠ r.1.log.file.length := by
  refine ⟨by decide, fun h => ?_, by decide⟩
  have hkey := congrArg (fun m => m.contents [107]) h
  revert hkey
  decide +kernel

end KvStore
