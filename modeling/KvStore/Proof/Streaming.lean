import KvStore.Repl.Link
import KvStore.Proof.Intake

/-!
# Streaming is exact

What the follower has in its log, what it remembers, what it has read and what is
still on its way are, end to end, the beginning of the leader's log. So the
records it splits off are the leader's own, in order; and as its flag goes down
only behind a commit marker or a plain record, it writes whole operations.

A kill in the middle of a write leaves some of the batch behind. Where the next
recovery then finds no transaction open, what is left is whole operations again,
and everything above goes on as before.
-/

namespace KvStore.Repl

open Lib Wal Protocol

variable {lcfg fcfg : StoreConfig}

/-! ## A follower that holds operations -/

/-- Log and memory of the follower are those of `ops`, and the applier is between operations. -/
structure Holds (f : Follower fcfg) (ops : List Op) : Prop where
  file : f.store.log.file = ops.flatMap Op.bytes
  offset : f.store.log.offset = f.store.log.file.length
  meaning : RecordApplier.meaning (f.applier, f.store)
    = { map := Meaning.applyOps ops (ShardedMap.init _) }

theorem Holds.map {f : Follower fcfg} {ops : List Op} (h : Holds f ops) :
    f.store.map = Meaning.applyOps ops (ShardedMap.init _) := congrArg Meaning.map h.meaning

theorem Holds.disconnect {f : Follower fcfg} {ops : List Op} (h : Holds f ops) :
    Holds f.disconnect ops := by
  refine ⟨h.file, h.offset, ?_⟩
  show RecordApplier.meaning (f.applier.abandonOpenTransaction, f.store) = _
  rw [meaning_abandon, h.map]

/-- **What a follower holds is what its own log means.** -/
theorem Holds.reopen (hlog : fcfg.logEnabled = true) {f : Follower fcfg} {ops : List Op}
    (h : Holds f ops) (hfit : ∀ op ∈ ops, op.Fits) :
    (Store.openOn fcfg f.store.log.file).map = f.store.map
      ∧ (Store.openOn fcfg f.store.log.file).recoveryDiscardedTransaction = false := by
  have hrun : Meaning.run (ops.flatMap Op.payloads) (Meaning.init fcfg.toMapConfig)
      = some { map := Meaning.applyOps ops (ShardedMap.init _) } := Meaning.run_ops hfit _
  obtain ⟨hrec, _⟩ := recover_frames (payloads_le hfit) hrun (Or.inl rfl)
  rw [List.append_nil, ← frames_flatMap, ← h.file] at hrec
  refine ⟨by rw [openOn_map hlog, hrec, h.map], by rw [openOn_discarded hlog, hrec]; rfl⟩

/-- The beginning of a stream of operations is a beginning of their records. -/
theorem payloads_prefix {ops : List Op} (hfit : ∀ op ∈ ops, op.Fits) {ps : List Bytes}
    (hv : ∀ p ∈ ps, p.length ≤ kMaxPayloadBytes) (h : frames ps <+: ops.flatMap Op.bytes) :
    ps <+: ops.flatMap Op.payloads := by
  rw [frames_flatMap] at h
  exact FrameCode.frames_prefix (C := recordCode) hv (payloads_le hfit) h

/-! ## Reading -/

/-- The records that a read adds go on where the pending ones end. -/
theorem Tidy.pending_prefix {f : Follower fcfg} (h : Tidy f) {rest : List Op}
    (hfit : ∀ op ∈ rest, op.Fits) {chunk tail : Bytes}
    (hstream : frames f.pending ++ f.recvBuffer ++ chunk <+: rest.flatMap Op.bytes)
    {ps : List Bytes} (hv : ∀ p ∈ ps, p.length ≤ kMaxPayloadBytes)
    (hsplit : f.recvBuffer ++ chunk = frames ps ++ tail) :
    f.pending ++ ps <+: rest.flatMap Op.payloads := by
  refine payloads_prefix hfit (List.forall_mem_append.mpr ⟨h.valid, hv⟩) ?_
  rw [List.append_assoc, hsplit, ← List.append_assoc] at hstream
  rw [← frames_append] at hstream
  exact (List.prefix_append _ _).trans hstream

/-- **With its flag down, a follower has whole operations.** -/
theorem whole_operations {rest : List Op} (hfit : ∀ op ∈ rest, op.Fits) {ps : List Bytes}
    (hpre : ps <+: rest.flatMap Op.payloads) (hflag : ps.foldl flag false = false)
    (m : ShardedMap fcfg.toMapConfig) :
    ∃ j, ps = (rest.take j).flatMap Op.payloads
      ∧ Meaning.run ps { map := m } = some { map := Meaning.applyOps (rest.take j) m } := by
  obtain ⟨qs, hqs⟩ := hpre
  obtain ⟨j, txn, _, hrun, hwhole, _⟩ := run_prefix hfit hqs.symm m
  have hnone : txn = none := by
    have := run_flag hrun
    rw [show ({ map := m } : Meaning fcfg.toMapConfig).txn.isSome = false from rfl, hflag] at this
    exact Option.not_isSome_iff_eq_none.mp (by rw [this]; simp)
  subst hnone
  exact ⟨j, hwhole rfl, hrun⟩

/--
**One read of the leader's own bytes.** The link is given up for a reason that is
not the applier's; or the follower waits for more of a transaction; or it has
come some whole operations further, in its log and in memory.
-/
theorem receive_stream (hlog : fcfg.logEnabled = true) {f : Follower fcfg} {held rest : List Op}
    (hfit : ∀ op ∈ rest, op.Fits) (hholds : Holds f held) (htidy : Tidy f) {chunk : Bytes}
    (hstream : frames f.pending ++ f.recvBuffer ++ chunk <+: rest.flatMap Op.bytes) :
    (∃ e, e ≠ .rejected ∧ f.receive chunk {} = (f, .error e))
      ∨ (∃ g, f.receive chunk {} = (g, .ok none) ∧ Holds g held ∧ g.savedToken = f.savedToken
        ∧ Tidy g
        ∧ frames g.pending ++ g.recvBuffer = frames f.pending ++ f.recvBuffer ++ chunk)
      ∨ ∃ g j, f.receive chunk {} = (g, .ok (some g.store.logOffset))
        ∧ Holds g (held ++ rest.take j) ∧ g.savedToken = f.savedToken
        ∧ g.pending = [] ∧ g.insideTransaction = false
        ∧ (rest.take j).flatMap Op.bytes ++ g.recvBuffer
          = frames f.pending ++ f.recvBuffer ++ chunk := by
  rcases Follower.receive_spec f chunk {} with ⟨e, he, hrec⟩ | ⟨ps, tail, hv, hsplit, _, hrec⟩
  · refine Or.inl ⟨e, ?_, hrec⟩
    rcases he with rfl | rfl <;> simp
  have hpre := htidy.pending_prefix hfit hstream hv hsplit
  have hbytes : frames (f.pending ++ ps) ++ tail = frames f.pending ++ f.recvBuffer ++ chunk := by
    rw [List.append_assoc, hsplit, frames_append, List.append_assoc]
  have hflag := htidy.flag_append ps
  by_cases hflush : ps.foldl flag f.insideTransaction = false ∧ f.pending ++ ps ≠ []
  · -- whole operations: they are written and applied
    rw [if_pos hflush] at hrec
    obtain ⟨j, hwhole, hrun⟩ := whole_operations hfit hpre (hflag ▸ hflush.1)
      (Meaning.applyOps held (ShardedMap.init fcfg.toMapConfig))
    have hio : Lands fcfg.fsyncMode {} (frames (f.intake ps tail).pending).length :=
      ⟨accepts_nil _, fun _ => rfl⟩
    have hrun' : Meaning.run (f.intake ps tail).pending
        (RecordApplier.meaning ((f.intake ps tail).applier, (f.intake ps tail).store))
        = some { map := Meaning.applyOps (held ++ rest.take j) (ShardedMap.init _) } := by
      rw [Follower.intake_pending, Follower.intake_applier, Follower.intake_store, hholds.meaning,
        hrun, Meaning.applyOps_append]
    obtain ⟨applier, store, hflushed, hfile, hoffset, hmean⟩ :=
      Follower.flushPending_ok hlog (f.intake ps tail) (by simpa using hflush.2) hio hrun'
    rw [hflushed] at hrec
    refine Or.inr (Or.inr ⟨_, j, hrec, ⟨?_, ?_, ?_⟩, ?_, rfl, ?_, ?_⟩)
    · show store.log.file = _
      rw [hfile, Follower.intake_store, Follower.intake_pending, hholds.file, List.flatMap_append,
        hwhole, ← frames_flatMap]
    · show store.log.offset = store.log.file.length
      rw [hoffset, hfile, List.length_append, Follower.intake_store, hholds.offset]
    · show RecordApplier.meaning (applier, store) = _
      rw [hmean]
    · exact Follower.intake_savedToken f ps tail
    · show (f.intake ps tail).insideTransaction = false
      rw [Follower.intake_insideTransaction, hflush.1]
    · show _ ++ (f.intake ps tail).recvBuffer = _
      rw [Follower.intake_recvBuffer, frames_flatMap, ← hwhole, hbytes]
  · -- inside a transaction, or nothing whole yet
    rw [if_neg hflush] at hrec
    refine Or.inr (Or.inl ⟨_, hrec, ⟨?_, ?_, ?_⟩, ?_, htidy.intake hv hflush, ?_⟩)
    · rw [Follower.intake_store]; exact hholds.file
    · rw [Follower.intake_store]; exact hholds.offset
    · rw [Follower.intake_store, Follower.intake_applier]; exact hholds.meaning
    · exact Follower.intake_savedToken f ps tail
    · rw [Follower.intake_pending, Follower.intake_recvBuffer, hbytes]

/-! ## The stages of a connection -/

namespace Link

/--
Where a connection is, and what is on it. From the answer on, what the follower
has and what is on its way are the leader's log up to where the session has sent.
-/
inductive Stage (token log : Bytes) (f : Follower fcfg) : Option Conn → Prop
  | down : Idle f → Stage token log f none
  | requested {c : Conn} : Idle f → c.session = none → c.greeted = false →
      c.toLeader = f.request → c.toFollower = [] → Stage token log f (some c)
  | answered {c : Conn} {session : Session} (stream : Bytes) (offset : Nat) : Idle f →
      c.session = some session → c.greeted = false →
      c.toFollower = (answer (sentToken f.savedToken f.store.log.file.length)
        f.store.log.file.length token offset).1 ++ stream →
      (canResume (sentToken f.savedToken f.store.log.file.length)
        f.store.log.file.length token offset = false → f.store.log.file = []) →
      session.sentOffset ≤ log.length →
      f.store.log.file ++ stream = log.take session.sentOffset → Stage token log f (some c)
  | streaming {c : Conn} {session : Session} : Tidy f → f.savedToken = token →
      c.session = some session → c.greeted = true → session.sentOffset ≤ log.length →
      f.store.log.file ++ frames f.pending ++ f.recvBuffer ++ c.toFollower
        = log.take session.sentOffset → Stage token log f (some c)

/-- Everything that holds between two steps. -/
structure Inv (token : Bytes) (s : State lcfg fcfg) (held rest : List Op) : Prop where
  fits : ∀ op ∈ s.written, op.Fits
  logged : s.leader.log.file = s.written.flatMap Op.bytes
  offset : s.leader.log.offset = s.leader.log.file.length
  split : s.written = held ++ rest
  holds : Holds s.follower held
  known : s.follower.savedToken = token
    ∨ (s.follower.savedToken = [] ∧ s.follower.store.log.file = [])
  stage : Stage token s.leader.log.file s.follower s.conn
  acks : ∀ a ∈ s.acks, a ≤ s.follower.store.log.file.length
  unrejected : s.rejected = false

section Steps

variable {token : Bytes} {s : State lcfg fcfg} {held rest : List Op}

/-- Only the connection changes. -/
theorem Inv.of_stage (h : Inv token s held rest) {conn : Option Conn}
    (hstage : Stage token s.leader.log.file s.follower conn) :
    Inv token { s with conn := conn } held rest :=
  ⟨h.fits, h.logged, h.offset, h.split, h.holds, h.known, hstage, h.acks, h.unrejected⟩

theorem inv_init (hL : lcfg.logEnabled = true) (token : Bytes) :
    Inv token ({ leader := Store.openOn lcfg [] } : State lcfg fcfg) [] [] := by
  have hfile : (Store.openOn lcfg []).log.file = [] := by
    rw [openOn_file hL, recoverFromLog_nil]
  refine ⟨by simp, by simp [hfile], by rw [openOn_offset hL], rfl, ⟨rfl, rfl, rfl⟩,
    Or.inr ⟨rfl, rfl⟩, .down ⟨rfl, rfl, rfl⟩, by simp, rfl⟩

/-- Losing the connection loses nothing that counts. -/
theorem inv_hangUp (h : Inv token s held rest) : Inv token s.hangUp held rest :=
  ⟨h.fits, h.logged, h.offset, h.split, h.holds.disconnect, h.known,
    .down (idle_disconnect _), h.acks, h.unrejected⟩

theorem inv_giveUp (h : Inv token s held rest) {e : Drop} (he : e ≠ .rejected) :
    Inv token (s.giveUp e) held rest := by
  obtain ⟨h1, h2, h3, h4, h5, h6, h7, h8, h9⟩ := inv_hangUp h
  refine ⟨h1, h2, h3, h4, h5, h6, h7, h8, ?_⟩
  show (s.rejected || decide (e = .rejected)) = false
  rw [h.unrejected, decide_eq_false he]
  rfl

/-- A log that grows keeps what was sent of it. -/
theorem stage_append {log : Bytes} {f : Follower fcfg} {conn : Option Conn}
    (h : Stage token log f conn) (more : Bytes) : Stage token (log ++ more) f conn := by
  cases h with
  | down hidle => exact .down hidle
  | requested hidle h1 h2 h3 h4 => exact .requested hidle h1 h2 h3 h4
  | answered stream offset hidle h1 h2 h3 h4 hle hstream =>
      refine .answered stream offset hidle h1 h2 h3 h4 ?_ ?_
      · rw [List.length_append]; omega
      · rw [List.take_append_of_le_length hle]; exact hstream
  | streaming htidy hsaved h1 h2 hle hstream =>
      refine .streaming htidy hsaved h1 h2 ?_ ?_
      · rw [List.length_append]; omega
      · rw [List.take_append_of_le_length hle]; exact hstream

theorem inv_write (hL : lcfg.logEnabled = true) (h : Inv token s held rest) {op : Op}
    (hfit : op.Fits) :
    Inv token { s with leader := (s.leader.perform op {}).1, written := s.written ++ [op] }
      held (rest ++ [op]) := by
  obtain ⟨_, hfile, hoffset, _⟩ := perform_ok hL s.leader op
  refine ⟨?_, ?_, ?_, ?_, h.holds, h.known, ?_, h.acks, h.unrejected⟩
  · exact Op.fits_concat h.fits hfit
  · rw [hfile, h.logged]; simp
  · rw [hoffset, hfile, List.length_append, h.offset]
  · rw [h.split, List.append_assoc]
  · rw [hfile]; exact stage_append h.stage _

/-- What is on its way is what comes next. -/
theorem stream_prefix (h : Inv token s held rest) {x : Bytes} {n : Nat}
    (hx : s.follower.store.log.file ++ x = s.leader.log.file.take n) :
    x <+: rest.flatMap Op.bytes := by
  have hlog : s.leader.log.file = s.follower.store.log.file ++ rest.flatMap Op.bytes := by
    rw [h.logged, h.split, List.flatMap_append, h.holds.file]
  have hpre : s.follower.store.log.file ++ x <+: s.leader.log.file := by
    rw [hx]; exact List.take_prefix _ _
  rw [hlog] at hpre
  exact (List.prefix_append_right_inj _).mp hpre

theorem follower_le_leader (h : Inv token s held rest) :
    s.follower.store.log.file.length ≤ s.leader.log.file.length := by
  rw [h.holds.file, h.logged, h.split, List.flatMap_append, List.length_append]
  omega

theorem logOffset_follower (hF : fcfg.logEnabled = true) (h : Inv token s held rest) :
    s.follower.store.logOffset = s.follower.store.log.file.length := by
  rw [Store.logOffset, if_pos hF, h.holds.offset]

theorem logOffset_leader (hL : lcfg.logEnabled = true) (h : Inv token s held rest) :
    s.leader.logOffset = s.leader.log.file.length := by
  rw [Store.logOffset, if_pos hL, h.offset]

theorem inv_connect (h : Inv token s held rest) (hdown : s.conn = none) :
    Inv token { s with conn := some { toLeader := s.follower.request } } held rest := by
  have hidle : Idle s.follower := by
    have hstage := h.stage
    rw [hdown] at hstage
    cases hstage with
    | down hidle => exact hidle
  exact h.of_stage (.requested hidle rfl rfl rfl rfl)

/-- **The handshake goes on from the end of the follower's log**, or hangs up. -/
theorem inv_handshake (hL : lcfg.logEnabled = true) (hF : fcfg.logEnabled = true)
    (hplain : Plain token) (hne : token ≠ []) (hdash : token ≠ ascii "-")
    (h : Inv token s held rest) {s' : State lcfg fcfg} (hs : step token s .handshake = some s') :
    Inv token s' held rest := by
  have stage := h.stage
  rw [step] at hs
  cases hconn : s.conn with
  | none => rw [hconn] at hs; exact absurd hs (by simp)
  | some c =>
      rw [hconn] at hs stage
      dsimp only at hs
      split at hs
      · exact absurd hs (by simp)
      · rename_i hnone
        cases stage with
        | answered stream offset hidle h1 _ _ _ _ _ => rw [h1] at hnone; exact absurd rfl hnone
        | streaming _ _ h1 _ _ _ => rw [h1] at hnone; exact absurd rfl hnone
        | requested hidle h1 h2 h3 h4 =>
            have hsaved : Plain s.follower.savedToken := by
              rcases h.known with hk | ⟨hk, _⟩
              · rw [hk]; exact hplain
              · rw [hk]; decide
            obtain ⟨line, hline, hnl, hparse⟩ :=
              syncRequest_line hsaved s.follower.store.logOffset
            rw [h3, Follower.request, hline] at hs
            cases hread : readLine [] (line ++ [newline]) with
            | incomplete => rw [hread] at hs; exact absurd hs (by simp)
            | tooLong =>
                rw [hread] at hs
                cases hs
                exact inv_hangUp h
            | line text tail =>
                obtain ⟨rfl, rfl⟩ := readLine_unique hnl hread
                rw [hread] at hs
                dsimp only at hs
                rw [Session.performHandshake, hparse, logOffset_follower hF h,
                  logOffset_leader hL h] at hs
                -- an offset that `std::stoull` cannot read is answered with an error
                by_cases hbig : s.follower.store.log.file.length < 2 ^ 64
                · rw [if_pos hbig] at hs
                  cases hs
                  have htoken : s.follower.savedToken = token
                      ∨ s.follower.store.log.file.length = 0 := by
                    rcases h.known with hk | ⟨_, hk⟩
                    · exact Or.inl hk
                    · exact Or.inr (by rw [hk]; rfl)
                  obtain ⟨hsent, hfull⟩ :=
                    answer_offset htoken hne hdash (follower_le_leader h)
                  refine h.of_stage ?_
                  refine .answered [] s.leader.log.file.length hidle rfl h2 (by simp) ?_ ?_ ?_
                  · intro hno
                    exact List.length_eq_zero_iff.mp (hfull hno)
                  · rw [hsent]; exact follower_le_leader h
                  · rw [hsent, List.append_nil, h.logged, h.split, List.flatMap_append,
                      h.holds.file, List.take_left]
                · rw [if_neg hbig] at hs
                  cases hs
                  exact inv_hangUp h

/-- A follower whose log is empty has an empty map, and a full resync leaves both so. -/
theorem holds_reset (hF : fcfg.logEnabled = true) {f : Follower fcfg} {ops : List Op}
    (h : Holds f ops) (hempty : f.store.log.file = []) (leaderToken : Bytes) :
    Holds { f with
        store := (f.store.resetForFullResync true true).1
        applier := f.applier.abandonOpenTransaction
        savedToken := leaderToken } ops
      ∧ (f.store.resetForFullResync true true).1.log.file = [] := by
  have hnone : ∀ op ∈ ops, op.payloads = [] := by
    intro op hop
    by_contra hne
    have hbytes : op.bytes = [] := by
      have := h.file.symm.trans hempty
      exact List.flatMap_eq_nil_iff.mp this op hop
    have hpos := bytes_pos hne
    rw [hbytes] at hpos
    exact absurd hpos (Nat.lt_irrefl 0)
  -- so what it holds is operations without records, which do nothing
  have hinit : Meaning.applyOps ops (ShardedMap.init fcfg.toMapConfig) = ShardedMap.init _ :=
    applyOps_empty hnone _
  have hreset : (f.store.resetForFullResync true true).1
      = { f.store with
          map := f.store.map.clear, log := { f.store.log with file := [], offset := 0 } } := by
    rw [resetForFullResync_ok hF]
  refine ⟨⟨?_, ?_, ?_⟩, by rw [hreset]⟩
  · rw [← h.file, hempty, hreset]
  · rw [hreset]; rfl
  · rw [meaning_abandon, hreset, hinit]
    show ({ map := f.store.map.clear } : Meaning fcfg.toMapConfig) = _
    rw [h.map, hinit, ShardedMap.clear_init]

/-- **The follower gets further, and says so.** -/
theorem inv_acknowledge (hF : fcfg.logEnabled = true) (h : Inv token s held rest)
    {f : Follower fcfg} {held' rest' : List Op} (hsplit : s.written = held' ++ rest')
    (hholds : Holds f held') (hknown : f.savedToken = token)
    (hgrow : s.follower.store.log.file.length ≤ f.store.log.file.length) (htidy : Tidy f)
    {c : Conn} {session : Session} (hsession : c.session = some session)
    (hgreeted : c.greeted = true) (hle : session.sentOffset ≤ s.leader.log.file.length)
    (hstream : f.store.log.file ++ frames f.pending ++ f.recvBuffer ++ c.toFollower
      = s.leader.log.file.take session.sentOffset) :
    Inv token (State.acknowledge { s with follower := f } c f.store.logOffset) held' rest' := by
  refine ⟨h.fits, h.logged, h.offset, hsplit, hholds, Or.inl hknown,
    .streaming htidy hknown hsession hgreeted hle hstream, ?_, h.unrejected⟩
  intro a ha
  rcases List.mem_append.mp ha with ha | ha
  · exact Nat.le_trans (h.acks a ha) hgrow
  · rcases List.mem_singleton.mp ha with rfl
    show f.store.logOffset ≤ f.store.log.file.length
    rw [Store.logOffset, if_pos hF, hholds.offset]

theorem inv_greet (hF : fcfg.logEnabled = true) (hplain : Plain token) (hdash : token ≠ ascii "-")
    (h : Inv token s held rest) {s' : State lcfg fcfg} (hs : step token s .greet = some s') :
    Inv token s' held rest := by
  have stage := h.stage
  rw [step] at hs
  cases hconn : s.conn with
  | none => rw [hconn] at hs; exact absurd hs (by simp)
  | some c =>
      rw [hconn] at hs stage
      dsimp only at hs
      split at hs
      · exact absurd hs (by simp)
      · rename_i hnot
        cases stage with
        | requested hidle h1 h2 h3 h4 =>
            rw [h4] at hs
            exact absurd hs (by simp [readLine])
        | streaming _ _ _ h2 _ _ => exact absurd h2 hnot
        | answered stream offset hidle h1 h2 h3 hfull hle hstream =>
            obtain ⟨line, hline, hnl, hparse⟩ := answer_line hplain
              (sentToken s.follower.savedToken s.follower.store.log.file.length)
              s.follower.store.log.file.length offset
            rw [h3, hline, List.append_assoc, List.singleton_append] at hs
            cases hread : readLine [] (line ++ newline :: stream) with
            | incomplete => rw [hread] at hs; exact absurd hs (by simp)
            | tooLong =>
                rw [hread] at hs
                cases hs
                exact inv_giveUp h (by simp)
            | line text tail =>
                obtain ⟨rfl, rfl⟩ := readLine_unique hnl hread
                obtain ⟨i1, i2, i3⟩ := hidle
                rw [hread] at hs
                dsimp only at hs
                rw [Follower.onReply, hparse] at hs
                cases hcan :
                    canResume (sentToken s.follower.savedToken s.follower.store.log.file.length)
                      s.follower.store.log.file.length token offset with
                | true =>
                    -- resumed: the token was the leader's, and stays
                    rw [hcan] at hs
                    cases hs
                    refine inv_acknowledge hF h h.split h.holds
                      (savedToken_of_canResume hdash hcan) (Nat.le_refl _)
                      (Idle.tidy ⟨i1, i2, i3⟩) h1 rfl hle ?_
                    rw [i1, i2]
                    simpa using hstream
                | false =>
                    -- started over: there was nothing to lose
                    have hempty := hfull hcan
                    obtain ⟨hreset, hresetfile⟩ := holds_reset hF h.holds hempty token
                    have hok : (s.follower.store.resetForFullResync true true).2 = .ok () := by
                      rw [resetForFullResync_ok hF]
                    rw [hcan] at hs
                    rcases hr : s.follower.store.resetForFullResync true true with ⟨store, e | u⟩
                    · rw [hr] at hok; exact absurd hok (by simp)
                    · rw [hr] at hreset hresetfile
                      simp only [Bool.false_eq_true, if_false, hr] at hs
                      cases hs
                      refine inv_acknowledge hF h h.split hreset rfl ?_
                        (Idle.tidy ⟨i1, i2, i3⟩) h1 rfl hle ?_
                      · rw [hempty]; exact Nat.zero_le _
                      · dsimp only at hresetfile ⊢
                        rw [hresetfile, i1, i2]
                        rw [hempty] at hstream
                        simpa using hstream

theorem inv_ship (hL : lcfg.logEnabled = true) (h : Inv token s held rest) {n : Nat}
    {s' : State lcfg fcfg} (hs : step token s (.ship n) = some s') : Inv token s' held rest := by
  have stage := h.stage
  rw [step] at hs
  cases hconn : s.conn with
  | none => rw [hconn] at hs; exact absurd hs (by simp)
  | some c =>
      rw [hconn] at hs stage
      dsimp only at hs
      cases hses : c.session with
      | none => rw [hses] at hs; exact absurd hs (by simp)
      | some session =>
          rw [hses, Option.bind_some, logOffset_leader hL h] at hs
          cases hchunk : session.shipChunk s.leader.log.file s.leader.log.file.length n with
          | none => rw [hchunk] at hs; exact absurd hs (by simp)
          | some r =>
              obtain ⟨session', bytes⟩ := r
              rw [hchunk] at hs
              cases hs
              obtain ⟨hle, htake⟩ := Session.shipChunk_spec hchunk
              refine h.of_stage ?_
              cases stage with
              | requested _ h1 _ _ _ => rw [hses] at h1; exact absurd h1 (by simp)
              | answered stream offset hidle h1 h2 h3 hfull _ hstream =>
                  cases hses.symm.trans h1
                  refine .answered (stream ++ bytes) offset hidle rfl h2 ?_ hfull hle ?_
                  · rw [h3, List.append_assoc]
                  · rw [htake, ← hstream, List.append_assoc]
              -- what is shipped goes behind what is under way
              | streaming htidy hsaved h1 h2 _ hstream =>
                  cases hses.symm.trans h1
                  refine .streaming htidy hsaved rfl h2 hle ?_
                  rw [htake, ← hstream]
                  simp

theorem incoming_within (c : Conn) (n : Nat) : incoming (some c) n <+: c.toFollower := by
  rw [incoming]
  split
  · exact List.take_prefix _ _
  · exact List.nil_prefix

theorem rest_fits (h : Inv token s held rest) : ∀ op ∈ rest, op.Fits := by
  intro op hop
  refine h.fits op ?_
  rw [h.split]
  exact List.mem_append_right _ hop

/-- What a follower reads goes on where its log and its memory of the stream end. -/
theorem incoming_stream (h : Inv token s held rest) {c : Conn} {sent : Nat}
    (hstream : s.follower.store.log.file ++ frames s.follower.pending ++ s.follower.recvBuffer
      ++ c.toFollower = s.leader.log.file.take sent) (n : Nat) :
    frames s.follower.pending ++ s.follower.recvBuffer ++ incoming (some c) n
      <+: rest.flatMap Op.bytes := by
  have hall : frames s.follower.pending ++ s.follower.recvBuffer ++ c.toFollower
      <+: rest.flatMap Op.bytes :=
    stream_prefix h (n := sent) (by rw [← hstream]; simp)
  exact ((List.prefix_append_right_inj _).mpr (incoming_within c n)).trans hall

/-- **A read keeps everything**, and may take the follower some operations further. -/
theorem inv_read (hF : fcfg.logEnabled = true) (h : Inv token s held rest) {n : Nat}
    {s' : State lcfg fcfg} (hs : step token s (.read n) = some s') :
    ∃ held' rest', Inv token s' held' rest' := by
  have stage := h.stage
  rw [step] at hs
  cases hconn : s.conn with
  | none => rw [hconn] at hs; exact absurd hs (by simp)
  | some c =>
      rw [hconn] at hs stage
      dsimp only at hs
      split at hs
      · rename_i hread
        cases stage with
        | requested _ _ h2 _ _ => rw [h2] at hread; exact absurd hread.1 (by simp)
        | answered _ _ _ _ h2 _ _ _ _ => rw [h2] at hread; exact absurd hread.1 (by simp)
        | streaming htidy hsaved h1 h2 hle hstream =>
            have hpre := incoming_stream h hstream n
            obtain ⟨tail, htail⟩ := incoming_within c n
            generalize incoming (some c) n = chunk at hs htail hpre
            have hdrop : c.toFollower.drop chunk.length = tail := by
              rw [← htail, List.drop_left]
            rw [hdrop] at hs
            rcases receive_stream hF (rest_fits h) h.holds htidy hpre with
              ⟨e, he, hrec⟩ | ⟨g, hrec, hg, hgsaved, hgtidy, hgbytes⟩
                | ⟨g, j, hrec, hg, hgsaved, hgpend, hgflag, hgbytes⟩
            · rw [hrec] at hs
              cases hs
              exact ⟨held, rest, inv_giveUp h he⟩
            · -- waiting for the rest of a transaction
              rw [hrec] at hs
              cases hs
              have hfile : g.store.log.file = s.follower.store.log.file := by
                rw [hg.file, h.holds.file]
              refine ⟨held, rest, h.fits, h.logged, h.offset, h.split, hg,
                Or.inl (hgsaved.trans hsaved), ?_, ?_, h.unrejected⟩
              · refine .streaming hgtidy (hgsaved.trans hsaved) h1 h2 hle ?_
                rw [hfile, List.append_assoc _ _ g.recvBuffer, hgbytes, ← hstream, ← htail]
                simp
              · dsimp only
                rw [hfile]
                exact h.acks
            · -- some operations further
              rw [hrec] at hs
              cases hs
              have hfile : g.store.log.file
                  = s.follower.store.log.file ++ (rest.take j).flatMap Op.bytes := by
                rw [hg.file, h.holds.file, List.flatMap_append]
              refine ⟨held ++ rest.take j, rest.drop j, inv_acknowledge hF h ?_ hg
                (hgsaved.trans hsaved) ?_ ⟨by simp [hgpend], by rw [hgpend, hgflag]; rfl,
                  fun hne => absurd hgpend hne⟩ h1 h2 hle ?_⟩
              · rw [h.split, List.append_assoc, List.take_append_drop]
              · rw [hfile, List.length_append]; omega
              · rw [hgpend, hfile, ← hstream, ← htail]
                dsimp only
                rw [show frames [] = [] from rfl, List.append_nil,
                  List.append_assoc _ _ g.recvBuffer,
                  hgbytes]
                simp
      · exact absurd hs (by simp)

theorem inv_drain (h : Inv token s held rest) {n : Nat} {s' : State lcfg fcfg}
    (hs : step token s (.drain n) = some s') : Inv token s' held rest := by
  have stage := h.stage
  rw [step] at hs
  cases hconn : s.conn with
  | none => rw [hconn] at hs; exact absurd hs (by simp)
  | some c =>
      rw [hconn] at hs stage
      dsimp only at hs
      cases hses : c.session with
      | none => rw [hses] at hs; exact absurd hs (by simp)
      | some session =>
          rw [hses, Option.map_some] at hs
          have hsent := Session.drainAcks_sentOffset session (c.toLeader.take (min n kAckReadBytes))
          rcases hd : session.drainAcks (c.toLeader.take (min n kAckReadBytes)) with
            ⟨session', _ | _⟩
          · rw [hd] at hs
            cases hs
            exact inv_hangUp h
          · rw [hd] at hs hsent
            cases hs
            dsimp only at hsent
            -- an acknowledgement moves no byte of the stream
            refine h.of_stage ?_
            cases stage with
            | requested _ h1 _ _ _ => rw [hses] at h1; exact absurd h1 (by simp)
            | answered stream offset hidle h1 h2 h3 hfull hle hstream =>
                cases hses.symm.trans h1
                rw [← hsent] at hle hstream
                exact .answered stream offset hidle rfl h2 h3 hfull hle hstream
            | streaming htidy hsaved h1 h2 hle hstream =>
                cases hses.symm.trans h1
                rw [← hsent] at hle hstream
                exact .streaming htidy hsaved rfl h2 hle hstream

/-! ## A kill -/

/-- What a follower writes is records of the leader, in order. -/
theorem batch_within {f : Follower fcfg} (htidy : Tidy f) (hfit : ∀ op ∈ rest, op.Fits)
    {chunk : Bytes}
    (hstream : frames f.pending ++ f.recvBuffer ++ chunk <+: rest.flatMap Op.bytes) :
    f.batch chunk <+: rest.flatMap Op.payloads := by
  unfold Follower.batch
  rcases Follower.consumeLoop_spec (f.recvBuffer ++ chunk) (f.recvBuffer ++ chunk).length 0 f
      (Nat.zero_le _) with ⟨ps, tail, hv, hsplit, hok⟩ | herr | herr
  · rw [hok, Follower.noteAll_eq]
    dsimp only
    split
    · exact htidy.pending_prefix hfit hstream hv hsplit
    · exact List.nil_prefix
  · rw [herr]; exact List.nil_prefix
  · rw [herr]; exact List.nil_prefix

/--
**A restart on a part of a batch** that leaves no transaction open has some of the
operations of the batch, and holds them as if it had been told of no others.
-/
theorem holds_restart (hF : fcfg.logEnabled = true) {f : Follower fcfg}
    (hheld : ∀ op ∈ held, op.Fits) (hrest : ∀ op ∈ rest, op.Fits) (hholds : Holds f held)
    {ps : List Bytes} (hpre : ps <+: rest.flatMap Op.payloads) (k : Nat)
    (hclean : (Store.openOn fcfg
      (f.store.log.file ++ (frames ps).take k)).recoveryDiscardedTransaction
      = false) :
    ∃ j, Holds (restart f (f.store.log.file ++ (frames ps).take k)) (held ++ rest.take j) := by
  have hrun : Meaning.run (held.flatMap Op.payloads) (Meaning.init fcfg.toMapConfig)
      = some { map := Meaning.applyOps held (ShardedMap.init _) } := Meaning.run_ops hheld _
  obtain ⟨bs, j, txn, hrec, hkept, _, _, hwhole⟩ :=
    recover_cut hrest (payloads_le hheld) hrun hpre k
  rw [← frames_flatMap, ← hholds.file] at hrec hkept
  -- no transaction was left open, so the records that are left are whole operations
  have hnone : txn = none := by
    rw [openOn_discarded hF, hrec] at hclean
    exact Option.not_isSome_iff_eq_none.mp (by rw [hclean]; simp)
  subst hnone
  refine ⟨j, ?_, openOn_offset hF _, ?_⟩
  · show (Store.openOn fcfg _).log.file = _
    rw [openOn_file hF, hkept, hwhole rfl, ← frames_flatMap, List.flatMap_append, hholds.file]
  · show ({ map := (Store.openOn fcfg _).map } : Meaning fcfg.toMapConfig) = _
    rw [openOn_map hF, hrec, Meaning.applyOps_append]

/--
In every state, the next thing the follower would write is the leader's next
records; and it writes nothing before it has saved a token.
-/
theorem batch_inv (h : Inv token s held rest) (n : Nat) :
    s.follower.batch (incoming s.conn n) <+: rest.flatMap Op.payloads
      ∧ (s.follower.savedToken = token ∨ s.follower.batch (incoming s.conn n) = []) := by
  have hidle : Idle s.follower → incoming s.conn n = [] →
      s.follower.batch (incoming s.conn n) <+: rest.flatMap Op.payloads
        ∧ (s.follower.savedToken = token ∨ s.follower.batch (incoming s.conn n) = []) := by
    intro hi hnone
    rw [hnone, hi.batch]
    exact ⟨List.nil_prefix, Or.inr rfl⟩
  have stage := h.stage
  cases hconn : s.conn with
  | none =>
      rw [hconn] at stage hidle
      cases stage with
      | down hi => exact hidle hi rfl
  | some c =>
      rw [hconn] at stage hidle
      cases stage with
      | requested hi _ h2 _ _ => exact hidle hi (by rw [incoming, h2]; rfl)
      | answered _ _ hi _ h2 _ _ _ _ => exact hidle hi (by rw [incoming, h2]; rfl)
      | streaming htidy hsaved _ _ _ hstream =>
          exact ⟨batch_within htidy (rest_fits h) (incoming_stream h hstream n), Or.inl hsaved⟩

theorem inv_crash (hF : fcfg.logEnabled = true) (h : Inv token s held rest) {n k : Nat}
    (hclean : (Store.openOn fcfg
        (s.follower.store.log.file
          ++ ((s.follower.batch (incoming s.conn n)).flatMap frame).take k)
      ).recoveryDiscardedTransaction = false)
    {s' : State lcfg fcfg} (hs : step token s (.crash n k) = some s') :
    ∃ held' rest', Inv token s' held' rest' := by
  have hsplit : ∀ op ∈ held ++ rest, op.Fits := h.split ▸ h.fits
  obtain ⟨j, hj⟩ := holds_restart hF (fun op hop => hsplit op (List.mem_append_left _ hop))
    (rest_fits h) h.holds (batch_inv h n).1 k hclean
  rw [step] at hs
  cases hs
  have hfile := hj.file
  rw [List.flatMap_append, ← h.holds.file] at hfile
  refine ⟨held ++ rest.take j, rest.drop j, h.fits, h.logged, h.offset, ?_, hj, ?_,
    .down ⟨rfl, rfl, rfl⟩, ?_, h.unrejected⟩
  · rw [h.split, List.append_assoc, List.take_append_drop]
  · rcases h.known with hk | ⟨hk, hempty⟩
    · exact Or.inl hk
    · -- before it has a token a follower has nothing to write
      rcases (batch_inv h n).2 with hsaved | hbatch
      · exact Or.inl hsaved
      · refine Or.inr ⟨hk, ?_⟩
        show (Store.openOn fcfg _).log.file = []
        rw [openOn_file hF, hbatch, hempty, List.flatMap_nil, List.take_nil, List.append_nil]
        exact recoverFromLog_nil fcfg
  · intro a ha
    have := h.acks a ha
    have hlen := congrArg List.length hfile
    rw [List.length_append] at hlen
    show a ≤ (restart s.follower _).store.log.file.length
    rw [hlen]
    omega

end Steps

/-! ## Whole runs -/

/-- A kill leaves a log that ends between operations. -/
def CleanCrash (s : State lcfg fcfg) : Act → Prop
  | .crash n k =>
      (Store.openOn fcfg
        (s.follower.store.log.file
          ++ ((s.follower.batch (incoming s.conn n)).flatMap frame).take k)
      ).recoveryDiscardedTransaction = false
  | _ => True

/-- The follower is not killed. -/
def NoCrash (_ : State lcfg fcfg) : Act → Prop
  | .crash _ _ => False
  | _ => True

instance (s : State lcfg fcfg) (a : Act) : Decidable (CleanCrash s a) := by
  unfold CleanCrash
  split <;> infer_instance

instance (s : State lcfg fcfg) (a : Act) : Decidable (NoCrash s a) := by
  unfold NoCrash
  split <;> infer_instance

theorem NoCrash.clean {s : State lcfg fcfg} {a : Act} (h : NoCrash s a) : CleanCrash s a := by
  cases a <;> first | exact trivial | exact absurd h id

theorem inv_step (hL : lcfg.logEnabled = true) (hF : fcfg.logEnabled = true) (dev ino : Nat)
    {s s' : State lcfg fcfg} {a : Act} (hclean : CleanCrash s a)
    (hs : step (replicationToken dev ino) s a = some s')
    (h : ∃ held rest, Inv (replicationToken dev ino) s held rest) :
    ∃ held rest, Inv (replicationToken dev ino) s' held rest := by
  obtain ⟨held, rest, h⟩ := h
  have hplain := plain_replicationToken dev ino
  have hdash := replicationToken_ne_dash dev ino
  cases a with
  | write op =>
      rw [step] at hs
      split at hs
      · rename_i hfit
        cases hs
        exact ⟨held, rest ++ [op], inv_write hL h hfit⟩
      · exact absurd hs (by simp)
  | connect =>
      rw [step] at hs
      split at hs
      · rename_i hdown
        cases hs
        exact ⟨held, rest, inv_connect h hdown⟩
      · exact absurd hs (by simp)
  | handshake =>
      exact ⟨held, rest,
        inv_handshake hL hF hplain (replicationToken_ne_nil dev ino) hdash h hs⟩
  | greet => exact ⟨held, rest, inv_greet hF hplain hdash h hs⟩
  | ship n => exact ⟨held, rest, inv_ship hL h hs⟩
  | read n => exact inv_read hF h hs
  | drain n => exact ⟨held, rest, inv_drain h hs⟩
  | drop =>
      rw [step] at hs
      split at hs
      · cases hs
        exact ⟨held, rest, inv_hangUp h⟩
      · exact absurd hs (by simp)
  -- the log that is found again ends between operations
  | crash n k => exact inv_crash hF h hclean hs

theorem inv_reachable (hL : lcfg.logEnabled = true) (hF : fcfg.logEnabled = true) {dev ino : Nat}
    {s : State lcfg fcfg} (h : (system lcfg fcfg dev ino).ReachableBy CleanCrash s) :
    ∃ held rest, Inv (replicationToken dev ino) s held rest := by
  refine h.invariant ?_ fun s a s' hi hok hs => inv_step hL hF dev ino hok hs hi
  rintro s rfl
  exact ⟨[], [], inv_init hL _⟩

/--
What a follower owes its readers, and its leader. Its log is the leader's up to an
operation; its map is what that log means, and so at every record of a batch that
is being applied; and it has acknowledged no more than it has.
-/
structure Exact (s : State lcfg fcfg) : Prop where
  boundary : ∃ k, s.follower.store.log.file = (s.written.take k).flatMap Op.bytes
    ∧ s.follower.store.map = Meaning.applyOps (s.written.take k) (ShardedMap.init _)
  ofLeader : s.leader.log.file = s.written.flatMap Op.bytes
    ∧ s.follower.store.log.file <+: s.leader.log.file
  replayed : s.follower.store.map = (Store.openOn fcfg s.follower.store.log.file).map
  applying : ∀ n ps, ps <+: s.follower.batch (incoming s.conn n) →
    ∃ k, (Follower.applyAll ps (s.follower.applier, s.follower.store)).1.2.map
      = Meaning.applyOps (s.written.take k) (ShardedMap.init _)
  acknowledged : ∀ a ∈ s.acks, a ≤ s.follower.store.log.file.length

theorem Inv.exact (hF : fcfg.logEnabled = true) {token : Bytes} {s : State lcfg fcfg}
    {held rest : List Op} (h : Inv token s held rest) : Exact s := by
  have htake : s.written.take held.length = held := by rw [h.split, List.take_left]
  have hfit : ∀ op ∈ held, op.Fits := fun op hop => h.fits op (by
    rw [h.split]; exact List.mem_append_left _ hop)
  refine ⟨⟨held.length, ?_, ?_⟩, ⟨h.logged, ?_⟩, ?_, ?_, h.acks⟩
  · rw [htake, h.holds.file]
  · rw [htake, h.holds.map]
  · rw [h.logged, h.split, List.flatMap_append, ← h.holds.file]
    exact List.prefix_append _ _
  · exact (h.holds.reopen hF hfit).1.symm
  · -- between two records of a batch the map is that of whole operations
    intro n ps hps
    obtain ⟨qs, hqs⟩ := hps.trans (batch_inv h n).1
    obtain ⟨j, txn, _, hrun, _⟩ := run_prefix (rest_fits h) hqs.symm
      (Meaning.applyOps held (ShardedMap.init fcfg.toMapConfig))
    rw [← h.holds.meaning] at hrun
    obtain ⟨s', hfold, hmean⟩ := RecordApplier.foldlM_of_run hrun
    refine ⟨(held ++ rest.take j).length, ?_⟩
    have hsplit : s.written.take (held ++ rest.take j).length = held ++ rest.take j := by
      rw [h.split]
      have := @List.take_left _ (held ++ rest.take j) (rest.drop j)
      rwa [List.append_assoc, List.take_append_drop] at this
    rw [hsplit, Follower.applyAll_of_foldlM hfold, Meaning.applyOps_append]
    exact congrArg Meaning.map hmean

/--
**Streaming is exact.** However the writes of the leader, the two ends of the link
and its losses are interleaved, and wherever the stream is cut, the follower has a
prefix of the leader's log that ends between operations, and shows just that.
-/
theorem streaming_exact (hL : lcfg.logEnabled = true) (hF : fcfg.logEnabled = true)
    {dev ino : Nat} {s : State lcfg fcfg}
    (h : (system lcfg fcfg dev ino).ReachableBy NoCrash s) : Exact s := by
  have h' : (system lcfg fcfg dev ino).ReachableBy CleanCrash s :=
    h.mono fun _ _ hok => hok.clean
  obtain ⟨held, rest, hinv⟩ := inv_reachable hL hF h'
  exact hinv.exact hF

/-- The link is lost inside a transaction, and resumed. -/
theorem streaming_exact_resumed :
    ∃ s, (system standalone standalone 1 2).ReachableBy NoCrash s
      ∧ s.follower.store.map.contents [98] = some [50] ∧ s.acks = [0, 19, 19, 86] ∧ Exact s := by
  obtain ⟨s, hreach, hkey, hacks⟩ := System.exists_reachableBy
    (p := fun s => s.follower.store.map.contents [98] = some [50] ∧ s.acks = [0, 19, 19, 86])
    (show (system standalone standalone 1 2).ReachableBy NoCrash _ from .init rfl)
    [.write (.set [97] [49]), .connect, .handshake, .greet,
      .write (.commitTransaction 7 [{ key := [98], value := [50] },
        { erase := true, key := [97] }]),
      .ship 50, .read 30, .read 20, .drain 9, .drop, .connect, .handshake, .greet,
      .ship 100, .read 10, .read 100] (by decide +kernel) (by decide +kernel)
  exact ⟨s, hreach, hkey, hacks, streaming_exact rfl rfl hreach⟩

/--
**A follower survives being killed**, however often, so long as no kill leaves its
log inside a transaction: no record is ever refused, no part of a transaction is
ever seen, and with the leader's log it has the leader's map.
-/
theorem survives_kill (hL : lcfg.logEnabled = true) (hF : fcfg.logEnabled = true)
    {dev ino : Nat} {s : State lcfg fcfg}
    (h : (system lcfg fcfg dev ino).ReachableBy CleanCrash s) :
    s.rejected = false ∧ Exact s
      ∧ (s.follower.store.log.file.length = s.leader.log.file.length →
        s.follower.store.map = (Store.openOn fcfg s.leader.log.file).map) := by
  obtain ⟨held, rest, hinv⟩ := inv_reachable hL hF h
  have hexact := hinv.exact hF
  refine ⟨hinv.unrejected, hexact, fun hlen => ?_⟩
  rw [← hexact.ofLeader.2.eq_of_length hlen]
  exact hexact.replayed

/-- Killed with one operation of a batch and six bytes of the next in its log. -/
theorem survives_kill_between :
    ∃ s, (system standalone standalone 1 2).ReachableBy CleanCrash s
      ∧ s.follower.store.log.file.length = s.leader.log.file.length ∧ s.rejected = false
      ∧ s.follower.store.map = (Store.openOn standalone s.leader.log.file).map := by
  obtain ⟨s, hreach, hlen⟩ := System.exists_reachableBy
    (p := fun s => s.follower.store.log.file.length = 91 ∧ s.leader.log.file.length = 91)
    (show (system standalone standalone 1 2).ReachableBy CleanCrash _ from .init rfl)
    [.write (.set [97] [49]),
      .write (.commitTransaction 7 [{ key := [97], value := [49] },
        { key := [98], value := [50] }]),
      .connect, .handshake, .greet, .ship 100, .crash 100 25, .connect, .handshake, .greet,
      .ship 100, .read 100] (by decide +kernel) (by decide +kernel)
  obtain ⟨hrejected, _, hmap⟩ := survives_kill rfl rfl hreach
  have heq := hlen.1.trans hlen.2.symm
  exact ⟨s, hreach, heq, hrejected, hmap heq⟩

/--
Killed with `BEGIN` and one of two mutations in its log. The rest of the transaction
arrives: the other mutation is applied on its own, and the commit marker refused.
-/
theorem not_survives_kill_inside :
    ∃ s, (system standalone standalone 1 2).Reachable s
      ∧ s.rejected = true ∧ s.follower.store.log.file.length = s.leader.log.file.length
      ∧ s.follower.store.map.contents [97] = none
      ∧ s.follower.store.map.contents [98] = some [50]
      ∧ (Store.openOn standalone s.leader.log.file).map.contents [97] = some [49] :=
  System.exists_reachableBy (.init rfl)
    [.write (.commitTransaction 7 [{ key := [97], value := [49] }, { key := [98], value := [50] }]),
      .connect, .handshake, .greet, .ship 100, .crash 100 40, .connect, .handshake, .greet,
      .ship 19, .read 19, .ship 100, .read 100] (by decide +kernel) (by decide +kernel)

end Link

end KvStore.Repl
