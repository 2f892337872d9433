import KvStore.Store.RecordApplier

/-!
# What a log means

A log means a map and, possibly, a transaction that was opened and not closed.
`Meaning` is that, and `Meaning.step` is what one more record does to it. The
applier computes it one payload at a time (`apply_meaning`), so everything known
about the meaning of a list of records holds of recovery and of replication
alike, and none of it has to be proved twice.

The fact that carries the rest: from outside a transaction, the records of an
operation mean the operation (`run_payloads`).
-/

namespace KvStore

open Lib Wal Protocol

/-- What a payload says. -/
inductive LogRecord where
  | begin (txnId : UInt64)
  | commit (txnId : UInt64)
  | command (c : Command)
  deriving DecidableEq, Repr

/-- The order in which `apply` tries the three readings. -/
def decode (payload : Bytes) : Option LogRecord :=
  match parseBeginMarker payload with
  | some txnId => some (.begin txnId)
  | none =>
      match parseCommitMarker payload with
      | some txnId => some (.commit txnId)
      | none => (deserializeCommand payload).map .command

@[simp] theorem decode_begin (txnId : UInt64) :
    decode (serializeBeginMarker txnId) = some (.begin txnId) := by
  rw [decode, parseBeginMarker_begin]

@[simp] theorem decode_commit (txnId : UInt64) :
    decode (serializeCommitMarker txnId) = some (.commit txnId) := by
  rw [decode, parseBeginMarker_commit, parseCommitMarker_commit]

theorem decode_serialize {c : Command} (h : c.serialize.length ≤ kMaxPayloadBytes) :
    decode c.serialize = some (.command c) := by
  rw [decode, parseBeginMarker_serialize, parseCommitMarker_serialize,
    deserializeCommand_serialize h]
  rfl

/-- A map, and the transaction left open on top of it. -/
structure Meaning (cfg : MapConfig) where
  map : ShardedMap cfg
  txn : Option (UInt64 × List Mutation) := none

namespace Meaning

section

variable {cfg : MapConfig}

/-- What an empty log means. -/
def init (cfg : MapConfig) : Meaning cfg := { map := ShardedMap.init cfg }

/-- A command outside a transaction. -/
def runCommand (m : ShardedMap cfg) : Command → ShardedMap cfg
  | .set key value => m.set key value
  | .del key => (m.del key).1

/-- One decoded record more; `none` when it cannot follow. -/
def stepRecord (s : Meaning cfg) : LogRecord → Option (Meaning cfg)
  | .begin txnId =>
      match s.txn with
      | none => some { s with txn := some (txnId, []) }
      | some _ => none
  | .commit txnId =>
      match s.txn with
      | none => none
      | some (openTxnId, pending) =>
          if txnId = openTxnId then some { map := s.map.applyAtomically pending } else none
  | .command c =>
      match s.txn with
      | none => some { map := runCommand s.map c }
      | some (txnId, pending) => some { s with txn := some (txnId, pending ++ [c.toMutation]) }

/-- One payload more. -/
def step (s : Meaning cfg) (payload : Bytes) : Option (Meaning cfg) :=
  (decode payload).bind s.stepRecord

/-- A list of payloads. -/
def run (payloads : List Bytes) (s : Meaning cfg) : Option (Meaning cfg) := payloads.foldlM step s

@[simp] theorem run_nil (s : Meaning cfg) : run [] s = some s := rfl

theorem run_cons (p : Bytes) (ps : List Bytes) (s : Meaning cfg) :
    run (p :: ps) s = (s.step p).bind (run ps) := by
  rw [run, List.foldlM_cons]; rfl

theorem run_append (ps qs : List Bytes) (s : Meaning cfg) :
    run (ps ++ qs) s = (run ps s).bind (run qs) := by
  rw [run, List.foldlM_append]; rfl

end

end Meaning

/-! ## The applier computes the meaning -/

section Applier

variable {cfg : StoreConfig}

/-- What an applier and its store stand for. -/
def RecordApplier.meaning (s : RecordApplier × Store cfg) : Meaning cfg.toMapConfig :=
  { map := s.2.map
    txn := if s.1.insideTransaction then some (s.1.openTxnId, s.1.pending) else none }

theorem ShardedMap.applyAtomically_nil {cfg : MapConfig} (m : ShardedMap cfg) :
    m.applyAtomically [] = m := by
  simp [applyAtomically, touched, List.dedup_nil]

theorem applyTransactionFromLog_map (st : Store cfg) (mutations : List Mutation) :
    (st.applyTransactionFromLog mutations).map = st.map.applyAtomically mutations := by
  unfold Store.applyTransactionFromLog
  split
  · rename_i h
    rw [h, ShardedMap.applyAtomically_nil]
  · rfl

theorem applyCommand_map (st : Store cfg) (c : Command) :
    (applyCommand st c).map = Meaning.runCommand st.map c := by
  cases c <;> rfl

/-- **One record of the applier is one step of the meaning.** -/
theorem RecordApplier.apply_meaning (s : RecordApplier × Store cfg) (payload : Bytes) :
    (onRecord s payload).map meaning = (meaning s).step payload := by
  obtain ⟨a, st⟩ := s
  unfold onRecord apply Meaning.step decode
  dsimp only
  cases parseBeginMarker payload with
  | some txnId =>
      cases hin : a.insideTransaction <;> simp [meaning, Meaning.stepRecord, hin]
  | none =>
      cases parseCommitMarker payload with
      | some txnId =>
          cases hin : a.insideTransaction with
          | false => simp [meaning, Meaning.stepRecord, hin]
          | true =>
              -- a marker of another transaction is refused
              by_cases hid : txnId = a.openTxnId
              · simp [meaning, Meaning.stepRecord, hin, hid, applyTransactionFromLog_map]
              · simp [meaning, Meaning.stepRecord, hin, hid]
      | none =>
          cases deserializeCommand payload with
          | none => simp
          | some command =>
              cases hin : a.insideTransaction <;>
                simp [meaning, Meaning.stepRecord, hin, applyCommand_map]

theorem RecordApplier.foldlM_meaning (payloads : List Bytes) (s : RecordApplier × Store cfg) :
    (payloads.foldlM onRecord s).map meaning = Meaning.run payloads (meaning s) := by
  induction payloads generalizing s with
  | nil => rfl
  | cons p ps ih =>
      rw [List.foldlM_cons, Meaning.run_cons, ← apply_meaning]
      cases onRecord s p with
      | none => rfl
      | some s' => exact ih s'

/-- A run of the meaning is a run of the applier, with a state that means its result. -/
theorem RecordApplier.foldlM_of_run {payloads : List Bytes} {s : RecordApplier × Store cfg}
    {r : Meaning cfg.toMapConfig} (h : Meaning.run payloads (meaning s) = some r) :
    ∃ s', payloads.foldlM onRecord s = some s' ∧ meaning s' = r := by
  rw [← foldlM_meaning] at h
  exact Option.map_eq_some_iff.mp h

theorem RecordApplier.run_of_foldlM {payloads : List Bytes} {s s' : RecordApplier × Store cfg}
    (h : payloads.foldlM onRecord s = some s') :
    Meaning.run payloads (meaning s) = some (meaning s') := by
  rw [← foldlM_meaning, h]; rfl

/-- Applying records never touches the log. -/
theorem RecordApplier.onRecord_log {s s' : RecordApplier × Store cfg} {payload : Bytes}
    (h : onRecord s payload = some s') : s'.2.log = s.2.log := by
  obtain ⟨a, st⟩ := s
  unfold onRecord apply at h
  dsimp only at h
  split at h
  · split at h
    · exact absurd h (by simp)
    · injection h with h; rw [← h]
  · split at h
    · split at h
      · exact absurd h (by simp)
      · injection h with h
        rw [← h]
        unfold Store.applyTransactionFromLog
        split <;> rfl
    · split at h
      · exact absurd h (by simp)
      · rename_i command _
        split at h
        · injection h with h; rw [← h]
        · injection h with h
          rw [← h]
          cases command <;> rfl

theorem RecordApplier.foldlM_log {payloads : List Bytes} {s s' : RecordApplier × Store cfg}
    (h : payloads.foldlM onRecord s = some s') : s'.2.log = s.2.log := by
  induction payloads generalizing s with
  | nil =>
      have : s = s' := by simpa using h
      rw [this]
  | cons p ps ih =>
      rw [List.foldlM_cons] at h
      obtain ⟨s1, h1, h2⟩ := Option.bind_eq_some_iff.mp h
      rw [ih h2, onRecord_log h1]

end Applier

/-! ## The records of an operation mean the operation -/

namespace Meaning

variable {cfg : MapConfig}

/-- A mutation as the log gives it back: a deletion carries no value. -/
def logged (mutation : Mutation) : Mutation :=
  if mutation.erase then { erase := true, key := mutation.key }
  else { erase := false, key := mutation.key, value := mutation.value }

theorem applyOne_logged (m : ShardedMap cfg) (mutation : Mutation) :
    m.applyOne (logged mutation) = m.applyOne mutation := by
  unfold ShardedMap.applyOne logged
  cases mutation.erase <;> rfl

theorem applyAtomically_logged (m : ShardedMap cfg) (mutations : List Mutation) :
    m.applyAtomically (mutations.map logged) = m.applyAtomically mutations := by
  have hkey : ∀ mutation, (logged mutation).key = mutation.key := by
    intro mutation
    unfold logged
    split <;> rfl
  have htouched : ShardedMap.touched cfg (mutations.map logged)
      = ShardedMap.touched cfg mutations := by
    unfold ShardedMap.touched
    rw [List.map_map]
    congr 3
    funext mutation
    exact congrArg cfg.shardFor (hkey mutation)
  have hfold : (mutations.map logged).foldl ShardedMap.applyOne m
      = mutations.foldl ShardedMap.applyOne m := by
    rw [List.foldl_map]
    congr
    funext m mutation
    exact applyOne_logged m mutation
  rw [ShardedMap.applyAtomically, ShardedMap.applyAtomically, htouched, hfold]

theorem decode_mutationPayload {mutation : Mutation}
    (h : (Store.mutationPayload mutation).length ≤ kMaxPayloadBytes) :
    ∃ c, decode (Store.mutationPayload mutation) = some (.command c)
      ∧ c.toMutation = logged mutation := by
  unfold Store.mutationPayload at h ⊢
  by_cases he : mutation.erase
  · rw [if_pos he] at h ⊢
    exact ⟨_, decode_serialize h, by simp [Command.toMutation, logged, he]⟩
  · rw [if_neg he] at h ⊢
    exact ⟨_, decode_serialize h, by simp [Command.toMutation, logged, he]⟩

/-- Inside a transaction, mutations pile up and the map stays as it is. -/
theorem run_mutations {mutations : List Mutation} {m : ShardedMap cfg} {txnId : UInt64}
    {pending : List Mutation}
    (h : ∀ mutation ∈ mutations, (Store.mutationPayload mutation).length ≤ kMaxPayloadBytes) :
    run (mutations.map Store.mutationPayload) { map := m, txn := some (txnId, pending) }
      = some { map := m, txn := some (txnId, pending ++ mutations.map logged) } := by
  induction mutations generalizing pending with
  | nil => simp
  | cons mutation mutations ih =>
      obtain ⟨c, hc, hlog⟩ := decode_mutationPayload (h mutation (List.mem_cons_self ..))
      rw [List.map_cons, run_cons, step, hc]
      show run _ { map := m, txn := some (txnId, pending ++ [c.toMutation]) } = _
      rw [ih (fun x hx => h x (List.mem_cons_of_mem _ hx)), hlog, List.map_cons,
        List.append_assoc]
      rfl

/-- **Outside a transaction, the records of an operation mean the operation.** -/
theorem run_payloads {op : Op} (hfit : op.Fits) (m : ShardedMap cfg) :
    run op.payloads { map := m } = some { map := op.applyTo m } := by
  cases op with
  | set key value =>
      have h := decode_serialize (hfit _ (List.mem_singleton.mpr rfl))
      show run [(Command.set key value).serialize] _ = _
      rw [run_cons, step, h]
      rfl
  | del key =>
      have h := decode_serialize (hfit _ (List.mem_singleton.mpr rfl))
      show run [(Command.del key).serialize] _ = _
      rw [run_cons, step, h]
      rfl
  | commitTransaction txnId mutations =>
      by_cases hnil : mutations = []
      · -- an empty commit logs nothing and changes nothing
        subst hnil
        show some _ = some _
        rw [show (Op.commitTransaction txnId []).applyTo m = m from
          ShardedMap.applyAtomically_nil m]
      · have hpay : (Op.commitTransaction txnId mutations).payloads
            = Store.transactionPayloads txnId mutations := if_neg hnil
        -- `BEGIN` opens it, the mutations pile up, `COMMIT` applies them at once
        rw [hpay, Store.transactionPayloads, run_cons, step, decode_begin]
        show run _ { map := m, txn := some (txnId, []) } = _
        rw [run_append, run_mutations (hfit.mutationPayload hpay), Option.bind_some, run_cons, step,
          decode_commit]
        show (if txnId = txnId then some _ else none).bind _ = _
        rw [if_pos rfl, List.nil_append, applyAtomically_logged]
        rfl

/-- Operations one after another. -/
def applyOps (ops : List Op) (m : ShardedMap cfg) : ShardedMap cfg :=
  ops.foldl (fun m op => op.applyTo m) m

@[simp] theorem applyOps_cons (op : Op) (ops : List Op) (m : ShardedMap cfg) :
    applyOps (op :: ops) m = applyOps ops (op.applyTo m) := rfl

theorem applyOps_append (ops ops' : List Op) (m : ShardedMap cfg) :
    applyOps (ops ++ ops') m = applyOps ops' (applyOps ops m) := List.foldl_append

theorem run_ops {ops : List Op} (hfit : ∀ op ∈ ops, op.Fits) (m : ShardedMap cfg) :
    run (ops.flatMap Op.payloads) { map := m } = some { map := applyOps ops m } := by
  induction ops generalizing m with
  | nil => rfl
  | cons op ops ih =>
      rw [List.flatMap_cons, run_append, run_payloads (hfit op (List.mem_cons_self ..)),
        Option.bind_some, ih (fun o ho => hfit o (List.mem_cons_of_mem _ ho))]
      rfl

theorem applyOps_contents (hoff : cfg.maxMemoryBytes = 0) (ops : List Op) (m : ShardedMap cfg) :
    (applyOps ops m).contents = runUpdates (ops.flatMap Op.updates) m.contents := by
  induction ops generalizing m with
  | nil => rfl
  | cons op ops ih =>
      rw [applyOps_cons, ih, applyTo_contents hoff, List.flatMap_cons, runUpdates_append]

/-! ## Two readings of one log -/

section Alike

variable {cfg' : MapConfig} {R : ShardedMap cfg → ShardedMap cfg' → Prop}

/-- Two meanings, perhaps of two configurations: related maps, and the same transaction open. -/
structure Alike (R : ShardedMap cfg → ShardedMap cfg' → Prop) (s : Meaning cfg)
    (s' : Meaning cfg') : Prop where
  map : R s.map s'.map
  txn : s.txn = s'.txn

/-- A record that can follow the one can follow the other, and does the same to both maps. -/
theorem Alike.step (happly : ∀ (op : Op) m m', R m m' → R (op.applyTo m) (op.applyTo m'))
    {s r : Meaning cfg} {s' : Meaning cfg'} (h : Alike R s s') {payload : Bytes}
    (hs : s.step payload = some r) : ∃ r', s'.step payload = some r' ∧ Alike R r r' := by
  obtain ⟨hmap, htxn⟩ := h
  obtain ⟨record, hrecord, hs⟩ := Option.bind_eq_some_iff.mp hs
  rw [Meaning.step, hrecord, Option.bind_some]
  cases record with
  | begin txnId =>
      rw [stepRecord, ← htxn]
      rw [stepRecord] at hs
      cases ht : s.txn with
      | none => rw [ht] at hs; cases hs; exact ⟨_, rfl, hmap, rfl⟩
      | some txn => rw [ht] at hs; exact absurd hs (by simp)
  | commit txnId =>
      rw [stepRecord, ← htxn]
      rw [stepRecord] at hs
      cases ht : s.txn with
      | none => rw [ht] at hs; exact absurd hs (by simp)
      | some txn =>
          rw [ht] at hs
          dsimp only at hs ⊢
          split at hs
          · rename_i hid
            cases hs
            rw [if_pos hid]
            exact ⟨_, rfl, happly (.commitTransaction 0 txn.2) _ _ hmap, rfl⟩
          · exact absurd hs (by simp)
  -- inside of a transaction a command is only put aside
  | command c =>
      rw [stepRecord, ← htxn]
      rw [stepRecord] at hs
      cases ht : s.txn with
      | none =>
          rw [ht] at hs
          cases hs
          refine ⟨_, rfl, ?_, rfl⟩
          cases c with
          | set key value => exact happly (.set key value) _ _ hmap
          | del key => exact happly (.del key) _ _ hmap
      | some txn => rw [ht] at hs; cases hs; exact ⟨_, rfl, hmap, rfl⟩

theorem Alike.run (happly : ∀ (op : Op) m m', R m m' → R (op.applyTo m) (op.applyTo m'))
    {payloads : List Bytes} {s r : Meaning cfg} {s' : Meaning cfg'} (h : Alike R s s')
    (hs : run payloads s = some r) : ∃ r', run payloads s' = some r' ∧ Alike R r r' := by
  induction payloads generalizing s s' with
  | nil =>
      rw [run_nil] at hs
      cases hs
      exact ⟨s', rfl, h⟩
  | cons p ps ih =>
      rw [run_cons] at hs
      obtain ⟨s1, h1, h2⟩ := Option.bind_eq_some_iff.mp hs
      obtain ⟨s1', h1', halike⟩ := h.step happly h1
      obtain ⟨r', h2', hr⟩ := ih halike h2
      exact ⟨r', by rw [run_cons, h1', Option.bind_some, h2'], hr⟩

end Alike

end Meaning

end KvStore
