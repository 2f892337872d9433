import KvStore.Proof.Recovery

/-!
# What survives a restart

Two questions about one file. The first is what a store that was opened on
*some* file, and then written to, leaves for the next recovery. The second is
what is left when the process dies while it appends.

Both come down to where the records already in the file stop. A recovery cuts a
damaged or unreadable tail off, so the records it keeps are all there is; but it
does not cut off a transaction that was begun and never committed. Whatever is
appended behind that reads, to the next recovery, as part of it.
-/

namespace KvStore

open Lib Wal Protocol

variable {cfg : StoreConfig}

/-! ## Writing behind an open transaction -/

/-- The three shapes of what an operation logs. -/
theorem payloads_cases (op : Op) :
    op.payloads = [] ∨ (∃ c : Command, op.payloads = [c.serialize])
      ∨ ∃ txnId mutations, op.payloads = Store.transactionPayloads txnId mutations := by
  cases op with
  | set key value => exact Or.inr (Or.inl ⟨_, rfl⟩)
  | del key => exact Or.inr (Or.inl ⟨_, rfl⟩)
  | commitTransaction txnId mutations =>
      by_cases hnil : mutations = []
      · exact Or.inl (if_pos hnil)
      · exact Or.inr (Or.inr ⟨txnId, mutations, if_neg hnil⟩)

/--
**What operations mean behind an open transaction.** Plain writes join it, and
are never seen again; the first transaction among them cannot be read at all.
-/
theorem run_inside {cfg : MapConfig} {ops : List Op} (hfit : ∀ op ∈ ops, op.Fits)
    (m : ShardedMap cfg) (txnId : UInt64) (pending : List Mutation) :
    (∃ extra, Meaning.run (ops.flatMap Op.payloads) { map := m, txn := some (txnId, pending) }
          = some { map := m, txn := some (txnId, pending ++ extra) }
        ∧ (extra = [] → ∀ op ∈ ops, op.payloads = []))
    ∨ (∃ ps p qs r, ops.flatMap Op.payloads = ps ++ p :: qs
        ∧ Meaning.run ps { map := m, txn := some (txnId, pending) } = some r
        ∧ r.step p = none) := by
  induction ops generalizing pending with
  | nil => exact Or.inl ⟨[], by simp, by simp⟩
  | cons op ops ih =>
      have hrest : ∀ o ∈ ops, o.Fits := fun o ho => hfit o (List.mem_cons_of_mem _ ho)
      rcases payloads_cases op with hpay | ⟨c, hpay⟩ | ⟨txnId', mutations, hpay⟩
      · -- an empty commit logs nothing
        rw [List.flatMap_cons, hpay, List.nil_append]
        refine (ih hrest pending).imp ?_ id
        rintro ⟨extra, h1, h2⟩
        refine ⟨extra, h1, fun h o ho => ?_⟩
        rcases List.mem_cons.mp ho with rfl | ho
        · exact hpay
        · exact h2 h o ho
      · -- a plain write piles up with the rest
        have hlen : c.serialize.length ≤ kMaxPayloadBytes :=
          hfit op (List.mem_cons_self ..) _ (by rw [hpay]; exact List.mem_singleton.mpr rfl)
        have hstep : Meaning.step { map := m, txn := some (txnId, pending) } c.serialize
            = some { map := m, txn := some (txnId, pending ++ [c.toMutation]) } := by
          rw [Meaning.step, decode_serialize hlen]; rfl
        rw [List.flatMap_cons, hpay, List.singleton_append]
        rcases ih hrest (pending ++ [c.toMutation]) with ⟨extra, h1, _⟩ | ⟨ps, p, qs, r, h1, h2, h3⟩
        · refine Or.inl ⟨c.toMutation :: extra, ?_, fun h => absurd h (List.cons_ne_nil _ _)⟩
          rw [Meaning.run_cons, hstep, Option.bind_some, h1, List.append_assoc]
          rfl
        · refine Or.inr ⟨c.serialize :: ps, p, qs, r, by rw [h1]; rfl, ?_, h3⟩
          rw [Meaning.run_cons, hstep, Option.bind_some, h2]
      · -- a `BEGIN` cannot follow inside a transaction
        rw [List.flatMap_cons, hpay]
        refine Or.inr ⟨[], serializeBeginMarker txnId',
          mutations.map Store.mutationPayload ++ [serializeCommitMarker txnId']
            ++ ops.flatMap Op.payloads, _, rfl, rfl, ?_⟩
        rw [Meaning.step, decode_begin]
        rfl

/-! ## Restarting, writing, restarting again -/

/-- The file a store leaves that was opened on `file` and has acknowledged `ops`. -/
def fileAfter (cfg : StoreConfig) (file : Bytes) (ops : List Op) : Bytes :=
  ((Store.openOn cfg file).performAll ops).log.file

/--
What a store owes its clients across a restart. The second recovery yields what
the operations did to the first one's map; it cuts nothing off the file, and its
transaction buffer holds nothing that the first recovery's did not.
-/
structure Durable (cfg : StoreConfig) (file : Bytes) (ops : List Op) : Prop where
  contents : (Store.openOn cfg (fileAfter cfg file ops)).map.contents
    = runUpdates (ops.flatMap Op.updates) (Store.openOn cfg file).map.contents
  kept : (Store.openOn cfg (fileAfter cfg file ops)).log.file = fileAfter cfg file ops
  unbuffered : discarded cfg (fileAfter cfg file ops) = discarded cfg file

theorem fileAfter_eq (hlog : cfg.logEnabled = true) (file : Bytes) (ops : List Op) :
    fileAfter cfg file ops
      = (recoverFromLog cfg file).file ++ frames (ops.flatMap Op.payloads) := by
  rw [fileAfter, (performAll_ok hlog ops _).1, openOn_file hlog, frames_flatMap]

theorem payloads_le {ops : List Op} (hfit : ∀ op ∈ ops, op.Fits) :
    ∀ p ∈ ops.flatMap Op.payloads, p.length ≤ kMaxPayloadBytes := by
  intro p hp
  obtain ⟨op, hop, hp⟩ := List.mem_flatMap.mp hp
  exact hfit op hop p hp

/-- Nothing to log is nothing to do. -/
theorem applyOps_empty {ops : List Op} (h : ∀ op ∈ ops, op.payloads = [])
    (m : ShardedMap cfg.toMapConfig) : Meaning.applyOps ops m = m := by
  induction ops generalizing m with
  | nil => rfl
  | cons op ops ih =>
      have hop :=
        (perform_empty ({ map := m } : Store cfg) {} (h op (List.mem_cons_self ..))).2.2.2.2
      have hop' : op.applyTo m = m := hop
      rw [Meaning.applyOps_cons, hop', ih (fun o ho => h o (List.mem_cons_of_mem _ ho))]

/-- A recovery that left no transaction open left a map and nothing else. -/
theorem recovered_closed {file : Bytes} (h : (recovered cfg file).txn.isSome = false) :
    recovered cfg file = { map := (recovered cfg file).map } := by
  cases hr : recovered cfg file with
  | mk map txn =>
      rw [hr] at h
      cases txn with
      | none => rfl
      | some txn => exact absurd h (by simp)

theorem recovered_open {file : Bytes} (h : (recovered cfg file).txn.isSome ≠ false) :
    ∃ txnId pending, recovered cfg file
      = { map := (recovered cfg file).map, txn := some (txnId, pending) } := by
  cases hr : recovered cfg file with
  | mk map txn =>
      rw [hr] at h
      cases txn with
      | none => exact absurd rfl h
      | some txn => exact ⟨txn.1, txn.2, rfl⟩

/-- What the records of `ops` mean behind a recovery is what the next one finds. -/
theorem recover_after (hlog : cfg.logEnabled = true) {file : Bytes} {ops : List Op}
    (hfit : ∀ op ∈ ops, op.Fits) {r : Meaning cfg.toMapConfig}
    (hr : Meaning.run (ops.flatMap Op.payloads) (recovered cfg file) = some r) :
    recovered cfg (fileAfter cfg file ops) = r
      ∧ (recoverFromLog cfg (fileAfter cfg file ops)).file = fileAfter cfg file ops := by
  obtain ⟨ps, hv, hrun, hfile, _⟩ := recover_spec cfg file
  have hafter : fileAfter cfg file ops = frames (ps ++ ops.flatMap Op.payloads) := by
    rw [fileAfter_eq hlog, hfile, frames_append]
  have hvall : ∀ p ∈ ps ++ ops.flatMap Op.payloads, p.length ≤ kMaxPayloadBytes :=
    List.forall_mem_append.mpr ⟨hv, payloads_le hfit⟩
  have hboth : Meaning.run (ps ++ ops.flatMap Op.payloads) (Meaning.init _) = some r := by
    rw [Meaning.run_append, hrun, Option.bind_some, hr]
  obtain ⟨h1, h2⟩ := recover_frames hvall hboth (Or.inl rfl)
  rw [List.append_nil] at h1 h2
  rw [hafter]
  exact ⟨h1, h2⟩

/--
A second recovery that finds what the operations did to the first one's map, keeps
the whole file, and buffers nothing the first one did not buffer.
-/
structure RecoversAppended (cfg : StoreConfig) (file : Bytes) (ops : List Op) : Prop where
  map : (Store.openOn cfg (fileAfter cfg file ops)).map
    = Meaning.applyOps ops (Store.openOn cfg file).map
  kept : (Store.openOn cfg (fileAfter cfg file ops)).log.file = fileAfter cfg file ops
  unbuffered : discarded cfg (fileAfter cfg file ops) = discarded cfg file

/-- Operations that log nothing change nothing, whatever the recovery left. -/
theorem recoversAppended_of_empty (hlog : cfg.logEnabled = true) (file : Bytes) {ops : List Op}
    (h : ∀ op ∈ ops, op.payloads = []) : RecoversAppended cfg file ops := by
  have hp : ops.flatMap Op.payloads = [] := List.flatMap_eq_nil_iff.mpr h
  have hfit : ∀ op ∈ ops, op.Fits := by
    intro op hop p hp
    rw [h op hop] at hp
    exact absurd hp (List.not_mem_nil)
  obtain ⟨h1, h2⟩ := recover_after hlog hfit (r := recovered cfg file) (by rw [hp]; rfl)
  refine ⟨?_, by rw [openOn_file hlog, h2], by rw [discarded, h1]; rfl⟩
  rw [openOn_map hlog, openOn_map hlog, h1, applyOps_empty h]

/-- **From a recovery that left no transaction open, everything is restored.** -/
theorem recoversAppended_of_closed (hlog : cfg.logEnabled = true) {file : Bytes} {ops : List Op}
    (hfit : ∀ op ∈ ops, op.Fits)
    (hclosed : (Store.openOn cfg file).recoveryDiscardedTransaction = false) :
    RecoversAppended cfg file ops := by
  rw [openOn_discarded hlog] at hclosed
  have hrec := recovered_closed hclosed
  obtain ⟨h1, h2⟩ := recover_after hlog hfit
    (r := { map := Meaning.applyOps ops (recovered cfg file).map })
    (by rw [hrec]; exact Meaning.run_ops hfit _)
  refine ⟨by rw [openOn_map hlog, openOn_map hlog, h1], by rw [openOn_file hlog, h2], ?_⟩
  rw [discarded, discarded, h1, hrec]

/--
**Behind an open transaction every logged operation is lost**: the next recovery
either takes it for a part of that transaction or cuts it off.
-/
theorem empty_of_restored (hlog : cfg.logEnabled = true) {file : Bytes} {ops : List Op}
    (hfit : ∀ op ∈ ops, op.Fits)
    (hopen : (Store.openOn cfg file).recoveryDiscardedTransaction ≠ false)
    (hkept : (Store.openOn cfg (fileAfter cfg file ops)).log.file = fileAfter cfg file ops)
    (hbuf : discarded cfg (fileAfter cfg file ops) = discarded cfg file) :
    ∀ op ∈ ops, op.payloads = [] := by
  rw [openOn_discarded hlog] at hopen
  obtain ⟨txnId, pending, hrec⟩ := recovered_open hopen
  rcases run_inside hfit (recovered cfg file).map txnId pending with
    ⟨extra, h1, h2⟩ | ⟨as, p, qs, r, hsplit, h1, h2⟩
  · -- plain writes joined the open transaction
    obtain ⟨hr, _⟩ := recover_after hlog hfit (by rw [hrec]; exact h1)
    rw [discarded, discarded, hr, hrec] at hbuf
    exact h2 (List.append_right_eq_self.mp hbuf)
  · -- a transaction among them is cut off, so the file did not stay as it was
    exfalso
    obtain ⟨ps, hv, hrun, hfile, _⟩ := recover_spec cfg file
    have hvall : ∀ x ∈ ops.flatMap Op.payloads, x.length ≤ kMaxPayloadBytes := payloads_le hfit
    rw [hsplit] at hvall
    have hvas : ∀ x ∈ ps ++ as, x.length ≤ kMaxPayloadBytes :=
      List.forall_mem_append.mpr ⟨hv, (List.forall_mem_append.mp hvall).1⟩
    have hboth : Meaning.run (ps ++ as) (Meaning.init _) = some r := by
      rw [Meaning.run_append, hrun, Option.bind_some, hrec, h1]
    have hshape : fileAfter cfg file ops = frames (ps ++ as) ++ (frame p ++ frames qs) := by
      rw [fileAfter_eq hlog, hfile, hsplit]
      simp [frames]
    obtain ⟨_, hcut⟩ := recover_frames hvas hboth
      (Or.inr ⟨p, frames qs, hvall p (by simp), Or.inr ⟨h2, rfl⟩⟩)
    rw [openOn_file hlog, hshape, hcut] at hkept
    have hlen := congrArg List.length hkept
    simp only [List.length_append, length_frame, kHeaderBytes] at hlen
    omega

/--
**A restart loses nothing exactly when the recovery before the writes left no
transaction open**, or there were no writes to lose.
-/
theorem durable_iff (hlog : cfg.logEnabled = true) (hoff : cfg.maxMemoryBytes = 0) (file : Bytes)
    {ops : List Op} (hfit : ∀ op ∈ ops, op.Fits) :
    Durable cfg file ops ↔
      (Store.openOn cfg file).recoveryDiscardedTransaction = false
        ∨ ∀ op ∈ ops, op.payloads = [] := by
  have hdurable : RecoversAppended cfg file ops → Durable cfg file ops := by
    rintro ⟨hmap, hkept, hbuf⟩
    refine ⟨?_, hkept, hbuf⟩
    rw [hmap]
    exact Meaning.applyOps_contents hoff ops _
  constructor
  · intro hdur
    by_cases hclosed : (Store.openOn cfg file).recoveryDiscardedTransaction = false
    · exact Or.inl hclosed
    · exact Or.inr (empty_of_restored hlog hfit hclosed hdur.kept hdur.unbuffered)
  · rintro (hclosed | hempty)
    · exact hdurable (recoversAppended_of_closed hlog hfit hclosed)
    · exact hdurable (recoversAppended_of_empty hlog file hempty)

/-- A torn record at the end of the file is cut off, and what follows survives. -/
theorem durable_iff_torn_tail :
    Durable standalone (frame (Command.set [97] [49]).serialize ++ [7, 7])
      [.commitTransaction 1 [{ key := [107], value := [118] }, { erase := true, key := [97] }]] :=
  (durable_iff rfl rfl _ (by decide)).mpr (Or.inl (by decide +kernel))

/-- A crash left a lone `BEGIN` behind; the store is opened, sets a key, and forgets it. -/
theorem not_durable_behind_begin :
    (Store.openOn standalone
        (fileAfter standalone (frame (serializeBeginMarker 1)) [.set [107] [118]])).map.contents
      ≠ runUpdates ([Op.set [107] [118]].flatMap Op.updates)
        (Store.openOn standalone (frame (serializeBeginMarker 1))).map.contents := by
  intro h
  have hkey := congrFun h [107]
  have hleft : (Store.openOn standalone (fileAfter standalone (frame (serializeBeginMarker 1))
      [.set [107] [118]])).map.contents [107] = none := by decide +kernel
  rw [hleft] at hkey
  simp [Op.updates] at hkey

/-! ## Dying while appending -/

/--
A part of an operation's records, but not all of them, changes nothing; and it
leaves a transaction open, unless there was nothing there at all.
-/
theorem run_part {cfg : MapConfig} {op : Op} (hfit : op.Fits) {ps qs : List Bytes}
    (h : op.payloads = ps ++ qs) (hne : qs ≠ []) (m : ShardedMap cfg) :
    ∃ txn, Meaning.run ps { map := m } = some { map := m, txn := txn }
      ∧ (txn = none → ps = []) := by
  cases ps with
  | nil => exact ⟨none, rfl, fun _ => rfl⟩
  | cons p ps =>
      rcases payloads_cases op with hpay | ⟨c, hpay⟩ | ⟨txnId, mutations, hpay⟩
      · rw [hpay] at h; exact absurd h (by simp)
      · -- one record is there or is not
        rw [hpay, List.cons_append] at h
        obtain ⟨_, h⟩ := List.cons.inj h
        exact absurd (List.append_eq_nil_iff.mp h.symm).2 hne
      · rw [hpay, Store.transactionPayloads, List.cons_append] at h
        obtain ⟨hp, h⟩ := List.cons.inj h
        -- short of the commit marker, there is only a part of the mutations
        have hlen := congrArg List.length h
        have hpos := List.length_pos_iff.mpr hne
        simp only [List.length_append, List.length_map, List.length_singleton] at hlen
        obtain ⟨n, hps⟩ : ∃ n, ps = (mutations.take n).map Store.mutationPayload := by
          have := congrArg (List.take ps.length) h
          rw [List.take_left,
            List.take_append_of_le_length (by rw [List.length_map]; omega)] at this
          exact ⟨ps.length, by rw [List.map_take, this]⟩
        have hmut : ∀ mutation ∈ mutations.take n,
            (Store.mutationPayload mutation).length ≤ kMaxPayloadBytes :=
          fun mutation hm => hfit.mutationPayload hpay mutation (List.mem_of_mem_take hm)
        refine ⟨some (txnId, [] ++ (mutations.take n).map Meaning.logged), ?_,
          fun hnone => absurd hnone (by simp)⟩
        rw [← hp, Meaning.run_cons, Meaning.step, decode_begin, hps]
        show Meaning.run _ { map := m, txn := some (txnId, []) } = _
        exact Meaning.run_mutations hmut

/--
**Any list of records an operation sequence begins with** means the operations it
holds in full, and no part of the next one; with no transaction left open, it is
those operations and nothing else.
-/
theorem run_prefix {cfg : MapConfig} {ops : List Op} (hfit : ∀ op ∈ ops, op.Fits)
    {ps qs : List Bytes} (h : ops.flatMap Op.payloads = ps ++ qs) (m : ShardedMap cfg) :
    ∃ j txn, j ≤ ops.length
      ∧ Meaning.run ps { map := m } = some { map := Meaning.applyOps (ops.take j) m, txn := txn }
      ∧ (txn = none → ps = (ops.take j).flatMap Op.payloads)
      ∧ (ops.take j).flatMap Op.payloads <+: ps
      ∧ ∀ i ≤ ops.length, (ops.take i).flatMap Op.payloads <+: ps → i ≤ j := by
  induction ops generalizing ps m with
  | nil =>
      obtain ⟨hps, _⟩ := List.append_eq_nil_iff.mp h.symm
      subst hps
      exact ⟨0, none, Nat.le_refl _, rfl, fun _ => rfl, List.nil_prefix, fun i hi _ => hi⟩
  | cons op ops ih =>
      have hop : op.Fits := hfit op (List.mem_cons_self ..)
      have hrest : ∀ o ∈ ops, o.Fits := fun o ho => hfit o (List.mem_cons_of_mem _ ho)
      by_cases hwhole : op.payloads <+: ps
      · -- this operation is there in full
        obtain ⟨ps', rfl⟩ := hwhole
        rw [List.flatMap_cons, List.append_assoc] at h
        obtain ⟨j, txn, h1, h2, hb, h3, h4⟩ := ih hrest (List.append_cancel_left h) (op.applyTo m)
        refine ⟨j + 1, txn, Nat.succ_le_succ h1, ?_, ?_, ?_, ?_⟩
        · rw [Meaning.run_append, Meaning.run_payloads hop, Option.bind_some, h2]
          rfl
        · intro hnone
          rw [List.take_succ_cons, List.flatMap_cons, ← hb hnone]
        · rw [List.take_succ_cons, List.flatMap_cons]
          exact (List.prefix_append_right_inj _).mpr h3
        · intro i hi hpre
          cases i with
          | zero => exact Nat.zero_le _
          | succ i =>
              rw [List.take_succ_cons, List.flatMap_cons] at hpre
              exact Nat.succ_le_succ (h4 i (Nat.le_of_succ_le_succ hi)
                ((List.prefix_append_right_inj _).mp hpre))
      · -- the records stop inside it
        obtain ⟨rs, hrs, hne⟩ : ∃ rs, op.payloads = ps ++ rs ∧ rs ≠ [] := by
          rw [List.flatMap_cons] at h
          rcases List.append_eq_append_iff.mp h with ⟨x, hx, _⟩ | ⟨x, hx, _⟩
          · exact absurd ⟨x, hx.symm⟩ hwhole
          · refine ⟨x, hx, fun hnil => hwhole ?_⟩
            have hall : op.payloads = ps := by rw [hx, hnil, List.append_nil]
            exact hall ▸ List.prefix_rfl
        obtain ⟨txn, htxn, hempty⟩ := run_part hop hrs hne m
        refine ⟨0, txn, Nat.zero_le _, htxn, hempty, List.nil_prefix, ?_⟩
        intro i hi hpre
        cases i with
        | zero => exact Nat.le_refl _
        | succ i =>
            rw [List.take_succ_cons, List.flatMap_cons] at hpre
            exact absurd ((List.prefix_append _ _).trans hpre) hwhole

/--
**A log that is cut while records are appended to it.** The records `bs` that are
whole are kept, the most that the cut leaves room for; they mean the operations
they hold in full, the most of those, and no part of the next one.
-/
theorem recover_cut {ops : List Op} (hfit : ∀ op ∈ ops, op.Fits) {start ps : List Bytes}
    (hstart : ∀ p ∈ start, p.length ≤ kMaxPayloadBytes) {m : ShardedMap cfg.toMapConfig}
    (hmean : Meaning.run start (Meaning.init _) = some { map := m })
    (hps : ps <+: ops.flatMap Op.payloads) (k : Nat) :
    ∃ bs j txn, recovered cfg (frames start ++ (frames ps).take k)
        = { map := Meaning.applyOps (ops.take j) m, txn := txn }
      ∧ (recoverFromLog cfg (frames start ++ (frames ps).take k)).file = frames start ++ frames bs
      ∧ (bs <+: ps ∧ (frames bs).length ≤ k
        ∧ ∀ ds, ds <+: ps → (frames ds).length ≤ k → ds <+: bs)
      ∧ (j ≤ ops.length ∧ (ops.take j).flatMap Op.payloads <+: bs
        ∧ ∀ i ≤ ops.length, (ops.take i).flatMap Op.payloads <+: bs → i ≤ j)
      ∧ (txn = none → bs = (ops.take j).flatMap Op.payloads) := by
  obtain ⟨bs, cs, q, rfl, htake, hq, hmax⟩ := FrameCode.frames_take (C := recordCode) ps k
  have htake : (frames (bs ++ cs)).take k = frames bs ++ q := htake
  obtain ⟨more, hmore⟩ := hps
  rw [List.append_assoc] at hmore
  have hvalid : ∀ p ∈ bs ++ (cs ++ more), p.length ≤ kMaxPayloadBytes := hmore ▸ payloads_le hfit
  obtain ⟨hvbs, hvcs⟩ := List.forall_mem_append.mp hvalid
  obtain ⟨j, txn, hj, hrun, hwhole, hpre, hjmax⟩ := run_prefix hfit hmore.symm m
  have hrunall : Meaning.run (start ++ bs) (Meaning.init _)
      = some { map := Meaning.applyOps (ops.take j) m, txn := txn } := by
    rw [Meaning.run_append, hmean, Option.bind_some, hrun]
  -- what is left behind the whole records is one that is torn
  have hdropped : Dropped { map := Meaning.applyOps (ops.take j) m, txn := txn } q := by
    rcases hq with rfl | ⟨c, cs', tail, rfl, hc, hne⟩
    · exact Or.inl rfl
    · exact Or.inr ⟨c, tail, hvcs c (by simp), Or.inl ⟨hc, hne⟩⟩
  obtain ⟨hrec, hfile⟩ :=
    recover_frames (List.forall_mem_append.mpr ⟨hstart, hvbs⟩) hrunall hdropped
  have hshape : frames start ++ (frames (bs ++ cs)).take k = frames (start ++ bs) ++ q := by
    rw [htake, frames_append, List.append_assoc]
  rw [hshape]
  refine ⟨bs, j, txn, hrec, hfile.trans (frames_append start bs),
    ⟨List.prefix_append _ _, ?_, hmax⟩,
    ⟨hj, hpre, hjmax⟩, hwhole⟩
  have hlen := congrArg List.length htake
  rw [List.length_take, List.length_append] at hlen
  omega

/-- The first `j` of `xs` are the most whose bytes lie within the first `k`. -/
def LongestWithin {α : Type} (bytes : α → Bytes) (xs : List α) (k j : Nat) : Prop :=
  j ≤ xs.length ∧ ((xs.take j).flatMap bytes).length ≤ k
    ∧ ∀ i ≤ xs.length, ((xs.take i).flatMap bytes).length ≤ k → i ≤ j

/-- The longest beginning that fits has the most elements that fit. -/
theorem longestWithin_records {ps bs : List Bytes} {k : Nat} (hpre : bs <+: ps)
    (hle : (frames bs).length ≤ k)
    (hmax : ∀ ds, ds <+: ps → (frames ds).length ≤ k → ds <+: bs) :
    LongestWithin frame ps k bs.length := by
  refine ⟨hpre.length_le, ?_, ?_⟩
  · rw [← List.prefix_iff_eq_take.mp hpre]
    exact hle
  · intro i hi hik
    have hlen := (hmax _ (List.take_prefix i _) hik).length_le
    rw [List.length_take] at hlen
    omega

theorem longestWithin_ops {ops : List Op} {bs : List Bytes} {k j : Nat} (hj : j ≤ ops.length)
    (hle : (frames bs).length ≤ k)
    (hmax : ∀ ds, ds <+: ops.flatMap Op.payloads → (frames ds).length ≤ k → ds <+: bs)
    (hpre : (ops.take j).flatMap Op.payloads <+: bs)
    (hjmax : ∀ i ≤ ops.length, (ops.take i).flatMap Op.payloads <+: bs → i ≤ j) :
    LongestWithin Op.bytes ops k j := by
  have hmono : ∀ {xs ys : List Bytes}, xs <+: ys → (frames xs).length ≤ (frames ys).length := by
    rintro xs ys ⟨zs, rfl⟩
    simp [frames]
  refine ⟨hj, ?_, ?_⟩
  · rw [frames_flatMap]
    exact Nat.le_trans (hmono hpre) hle
  · intro i hi hik
    rw [frames_flatMap] at hik
    refine hjmax i hi (hmax _ ?_ hik)
    nth_rewrite 2 [← List.take_append_drop i ops]
    rw [List.flatMap_append]
    exact List.prefix_append _ _

/--
**A crash in the middle of an append is a clean cut.** Let a log recover
completely, and let the process die after any number of the bytes that further
operations append. The next recovery finds exactly the operations whose bytes
were all written, and leaves the file cut off at the end of its last whole record.
-/
theorem crash_atomic (hlog : cfg.logEnabled = true) (hoff : cfg.maxMemoryBytes = 0) {b : Bytes}
    (htrunc : (Store.openOn cfg b).recovery.truncated = false)
    (hunknown : (Store.openOn cfg b).recovery.sawUnknownRecord = false)
    (htxn : (Store.openOn cfg b).recoveryDiscardedTransaction = false)
    {ops : List Op} (hfit : ∀ op ∈ ops, op.Fits) {a : Bytes}
    (ha : ((Store.openOn cfg b).performAll ops).log.file = b ++ a) (k : Nat) :
    (∃ j, LongestWithin Op.bytes ops k j
      ∧ (Store.openOn cfg (b ++ a.take k)).map.contents
        = runUpdates ((ops.take j).flatMap Op.updates) (Store.openOn cfg b).map.contents)
    ∧ ∃ i, LongestWithin frame (ops.flatMap Op.payloads) k i
      ∧ (Store.openOn cfg (b ++ a.take k)).log.file
        = b ++ frames ((ops.flatMap Op.payloads).take i) := by
  rw [openOn_recovery hlog] at htrunc hunknown
  rw [openOn_discarded hlog] at htxn
  have hwhole : (recoverFromLog cfg b).file = b := recover_file_eq htrunc hunknown
  have ha' : a = frames (ops.flatMap Op.payloads) := by
    have := (performAll_ok hlog ops (Store.openOn cfg b)).1
    rw [ha, openOn_file hlog, hwhole, frames_flatMap] at this
    exact List.append_cancel_left this
  -- the log is a list of records, which leave no transaction open
  obtain ⟨start, hstart, hrun, hb, _⟩ := recover_spec cfg b
  rw [hwhole] at hb
  rw [recovered_closed htxn] at hrun
  obtain ⟨bs, j, txn, hrec, hfile, ⟨hbs, hle, hmax⟩, ⟨hj, hpre, hjmax⟩, _⟩ :=
    recover_cut hfit hstart hrun List.prefix_rfl k
  rw [← hb, ← ha'] at hrec hfile
  refine ⟨⟨j, longestWithin_ops hj hle hmax hpre hjmax, ?_⟩,
    ⟨bs.length, longestWithin_records hbs hle hmax, ?_⟩⟩
  · rw [openOn_map hlog, openOn_map hlog, hrec]
    exact Meaning.applyOps_contents hoff _ _
  · rw [openOn_file hlog, hfile, ← List.prefix_iff_eq_take.mp hbs]

/-- Cut between `BEGIN` and `COMMIT`, one byte into a record: the transaction is gone. -/
theorem crash_atomic_inside_transaction :
    (Store.openOn standalone (frame (Command.set [97] [49]).serialize
        ++ ((Op.del [98]).bytes ++ (Op.commitTransaction 1 [{ key := [107] }]).bytes).take 32)
        ).map.contents
      = runUpdates [([98], none)] (Store.openOn standalone
          (frame (Command.set [97] [49]).serialize)).map.contents := by
  obtain ⟨⟨j, hj, hcontents⟩, _⟩ := @crash_atomic standalone rfl rfl
    (frame (Command.set [97] [49]).serialize)
    (by decide +kernel) (by decide +kernel) (by decide +kernel)
    [.del [98], .commitTransaction 1 [{ key := [107] }]] (by decide)
    ((Op.del [98]).bytes ++ (Op.commitTransaction 1 [{ key := [107] }]).bytes)
    (by decide +kernel) 32
  have hone : j = 1 := by
    have h1 := hj.2.2 1 (by decide) (by decide +kernel)
    have h2 : j ≤ 2 := hj.1
    have h3 : j ≠ 2 := by
      rintro rfl
      exact absurd hj.2.1 (by decide +kernel)
    omega
  subst hone
  exact hcontents

end KvStore
