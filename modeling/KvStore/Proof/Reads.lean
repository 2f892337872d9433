import KvStore.Proof.Durability
import KvStore.Store.Caches

/-!
# What a log reads as

Opening a store reads its log. What is read depends on the log, and on the budget,
which decides what of it stays in memory. This is about logs that are read to their
end: an operation that is appended is read with the rest, a compaction writes what
memory has and nothing that is too long to be read again, and whoever reads the log
with less room finds less, and nothing else.
-/

namespace KvStore

open Lib Wal Protocol

variable {cfg : StoreConfig}

/-! ## What is in the log fits into a log -/

/-- A value that was logged once can be logged again. -/
theorem fits_set_of_update {op : Op} (hfit : op.Fits) {key value : Bytes}
    (h : (key, some value) ∈ op.updates) : (Op.set key value).Fits := by
  cases op with
  | set k v =>
      cases List.mem_singleton.mp h
      exact hfit
  | del k => exact absurd (List.mem_singleton.mp h) (by simp)
  | commitTransaction txnId mutations =>
      obtain ⟨mutation, hm, heq⟩ := List.mem_map.mp h
      have hlen := hfit.mutationPayload (if_neg (List.ne_nil_of_mem hm)) _ hm
      unfold toUpdate at heq
      obtain ⟨rfl, hval⟩ := Prod.mk.inj heq
      split at hval
      · exact absurd hval (by simp)
      · rename_i hset
        cases hval
        rw [Store.mutationPayload, if_neg hset] at hlen
        intro p hp
        cases List.mem_singleton.mp hp
        exact hlen

/-- What a compaction writes, as operations. -/
def setOps (entries : List (Bytes × Bytes)) : List Op :=
  entries.map fun entry => .set entry.1 entry.2

theorem bytes_setOps (entries : List (Bytes × Bytes)) :
    (setOps entries).flatMap Op.bytes = Compactor.rewrite entries := by
  rw [setOps, List.flatMap_map]
  exact List.flatMap_congr fun entry _ => List.flatMap_singleton ..

theorem updates_setOps (entries : List (Bytes × Bytes)) :
    (setOps entries).flatMap Op.updates = puts entries := by
  rw [setOps, List.flatMap_map]
  exact List.map_eq_flatMap.symm

/-! ## Opening a log of whole operations -/

theorem openOn_ops (hlog : cfg.logEnabled = true) {ops : List Op} (hfit : ∀ op ∈ ops, op.Fits) :
    (Store.openOn cfg (ops.flatMap Op.bytes)).map = Meaning.applyOps ops (ShardedMap.init _)
      ∧ (Store.openOn cfg (ops.flatMap Op.bytes)).log.file = ops.flatMap Op.bytes
      ∧ (Store.openOn cfg (ops.flatMap Op.bytes)).recoveryDiscardedTransaction = false := by
  obtain ⟨h1, h2⟩ := recover_frames (payloads_le hfit) (Meaning.run_ops hfit (ShardedMap.init _))
    (Or.inl rfl)
  rw [List.append_nil, ← frames_flatMap] at h1 h2
  refine ⟨?_, (openOn_file hlog _).trans h2, ?_⟩
  · rw [openOn_map hlog, h1]
  · rw [openOn_discarded hlog, h1]
    rfl

theorem openOn_nil (hlog : cfg.logEnabled = true) :
    (Store.openOn cfg []).map = ShardedMap.init _ ∧ (Store.openOn cfg []).log.file = [] := by
  obtain ⟨hmap, hfile, -⟩ := @openOn_ops cfg hlog [] (by simp)
  exact ⟨hmap, hfile⟩

/-- One operation more is one operation more in the log. -/
theorem perform_logged (hlog : cfg.logEnabled = true) {st : Store cfg} {ops : List Op}
    (hlogged : st.log.file = ops.flatMap Op.bytes) (op : Op) :
    (st.perform op {}).1.log.file = (ops ++ [op]).flatMap Op.bytes := by
  obtain ⟨_, hfile, _, _⟩ := perform_ok hlog st op
  rw [hfile, hlogged, List.flatMap_append, List.flatMap_singleton]

/-! ## The caches behind the map -/

/-- What an operation does to the caches. -/
def Op.onCaches {cfg : MapConfig} (cs : Caches cfg) : Op → Caches cfg
  | .set key value => cs.set key value
  | .del key => cs.del key
  | .commitTransaction _ mutations => cs.applyAtomically mutations

theorem holds_applyTo {cfg : MapConfig} {m : ShardedMap cfg} {cs : Caches cfg} (h : m.Holds cs)
    (op : Op) : (op.applyTo m).Holds (op.onCaches cs) := by
  cases op with
  | set key value => exact h.set key value
  | del key => exact h.del key
  | commitTransaction txnId mutations => exact h.applyAtomically mutations

theorem bounded_onCaches {cfg : MapConfig} {cs : Caches cfg} (h : cs.Bounded) (op : Op) :
    (op.onCaches cs).Bounded := by
  cases op with
  | set key value => exact h.set key value
  | del key => exact h.del key
  | commitTransaction txnId mutations => exact h.applyAtomically mutations

theorem CachesInBudget.applyTo {cfg : MapConfig} {m : ShardedMap cfg} (h : CachesInBudget m)
    (op : Op) : CachesInBudget (op.applyTo m) := by
  obtain ⟨cs, hm, hb⟩ := h
  exact ⟨_, holds_applyTo hm op, bounded_onCaches hb op⟩

theorem CachesInBudget.applyOps {cfg : MapConfig} (ops : List Op) {m : ShardedMap cfg}
    (h : CachesInBudget m) : CachesInBudget (Meaning.applyOps ops m) := by
  induction ops generalizing m with
  | nil => exact h
  | cons op ops ih => exact ih (h.applyTo op)

theorem CachesInBudget.mem_snapshot {cfg : MapConfig} {m : ShardedMap cfg} (h : CachesInBudget m)
    {entries : List (Bytes × Bytes)} (hentries : entries.Perm m.snapshot) (key value : Bytes) :
    (key, value) ∈ entries ↔ m.contents key = some value := by
  obtain ⟨cs, hholds, _⟩ := h
  exact hentries.mem_iff.trans (hholds.mem_snapshot key value)

/-- The entries of a snapshot, in whatever order, are the map. -/
theorem runUpdates_snapshot {cfg : MapConfig} {m : ShardedMap cfg}
    (h : CachesInBudget m) {entries : List (Bytes × Bytes)} (hentries : entries.Perm m.snapshot) :
    runUpdates (puts entries) (fun _ => none) = m.contents := by
  obtain ⟨cs, hholds, _⟩ := h
  have hnodup : (entries.map Prod.fst).Nodup :=
    (hentries.map Prod.fst).nodup_iff.mpr hholds.nodup_snapshot
  funext key
  refine Option.ext fun value => ?_
  rw [← hholds.mem_snapshot, ← hentries.mem_iff]
  exact runUpdates_puts hnodup key value

/-! ## What is in memory can be logged -/

/-- Every entry fits into a record. -/
def Loggable {cfg : MapConfig} (m : ShardedMap cfg) : Prop :=
  ∀ key value, m.contents key = some value → (Op.set key value).Fits

theorem loggable_applyTo {cfg : MapConfig} {m : ShardedMap cfg} (h : Loggable m) (op : Op)
    (hop : ∀ key value, (key, some value) ∈ op.updates → (Op.set key value).Fits) :
    Loggable (op.applyTo m) := by
  intro key value hkey
  rcases runUpdates_eq_some (applyTo_within op m key value hkey) with hkey | hkey
  · exact h key value hkey
  · exact hop key value hkey

/-- What a recovery may have before it: a map that can be logged, and a transaction that can be. -/
structure Meaning.CanBeLogged {cfg : MapConfig} (s : Meaning cfg) : Prop where
  budget : CachesInBudget s.map
  loggable : Loggable s.map
  pending : ∀ txnId mutations, s.txn = some (txnId, mutations) →
    ∀ key value, (key, some value) ∈ mutations.map toUpdate → (Op.set key value).Fits

/-- A payload that was read as a command is what the command is written as. -/
theorem serialize_decode {payload : Bytes} {c : Command} (h : decode payload = some (.command c)) :
    c.serialize = payload := by
  refine serialize_deserializeCommand ?_
  unfold decode at h
  split at h
  · exact absurd h (by simp)
  · split at h
    · exact absurd h (by simp)
    · obtain ⟨c', hc, heq⟩ := Option.map_eq_some_iff.mp h
      cases heq
      exact hc

theorem fits_of_decode {payload key value : Bytes} (hlen : payload.length ≤ kMaxPayloadBytes)
    (h : decode payload = some (.command (.set key value))) : (Op.set key value).Fits := by
  intro p hp
  cases List.mem_singleton.mp hp
  rw [serialize_decode h]
  exact hlen

theorem canBeLogged_step {cfg : MapConfig} {s r : Meaning cfg} (h : s.CanBeLogged) {payload : Bytes}
    (hlen : payload.length ≤ kMaxPayloadBytes) (hs : s.step payload = some r) : r.CanBeLogged := by
  obtain ⟨rec, hrec, hs⟩ := Option.bind_eq_some_iff.mp hs
  unfold Meaning.stepRecord at hs
  split at hs
  · split at hs
    · cases hs
      refine ⟨h.budget, h.loggable, fun txnId mutations htxn => ?_⟩
      cases htxn
      simp
    · exact absurd hs (by simp)
  · split at hs
    · exact absurd hs (by simp)
    · rename_i txnId mutations htxn
      split at hs
      · cases hs
        have hop := h.pending _ _ htxn
        exact ⟨h.budget.applyTo (.commitTransaction 0 mutations),
          loggable_applyTo h.loggable (.commitTransaction 0 mutations) hop, by simp⟩
      · exact absurd hs (by simp)
  · rename_i c
    split at hs
    · cases hs
      cases c with
      | set key value =>
          have hfit := fits_of_decode hlen hrec
          exact ⟨h.budget.applyTo (.set key value),
            loggable_applyTo h.loggable (.set key value) fun k v hkv => fits_set_of_update hfit hkv,
            by simp⟩
      | del key =>
          exact ⟨h.budget.applyTo (.del key),
            loggable_applyTo h.loggable (.del key) (by simp [Op.updates]), by simp⟩
    · rename_i txnId mutations htxn
      cases hs
      refine ⟨h.budget, h.loggable, fun txnId' mutations' htxn' key value hkv => ?_⟩
      cases htxn'
      rw [List.map_append, List.mem_append] at hkv
      rcases hkv with hkv | hkv
      · exact h.pending _ _ htxn key value hkv
      · -- the record that has just joined the transaction
        cases c with
        | set k v =>
            cases List.mem_singleton.mp hkv
            exact fits_of_decode hlen hrec
        | del k => exact absurd (List.mem_singleton.mp hkv) (by simp [toUpdate, Command.toMutation])

theorem canBeLogged_run {cfg : MapConfig} {payloads : List Bytes} {s r : Meaning cfg}
    (h : s.CanBeLogged)
    (hlen : ∀ p ∈ payloads, p.length ≤ kMaxPayloadBytes) (hs : Meaning.run payloads s = some r) :
    r.CanBeLogged := by
  induction payloads generalizing s with
  | nil =>
      cases hs
      exact h
  | cons p ps ih =>
      rw [Meaning.run_cons] at hs
      obtain ⟨s1, h1, h2⟩ := Option.bind_eq_some_iff.mp hs
      exact ih (canBeLogged_step h (hlen p (List.mem_cons_self ..)) h1)
        (fun q hq => hlen q (List.mem_cons_of_mem _ hq)) h2

/-- **Whatever the log was**, what a store has after opening it can be logged. -/
theorem canBeLogged_recovered (cfg : StoreConfig) (file : Bytes) :
    (recovered cfg file).CanBeLogged := by
  obtain ⟨payloads, hlen, hrun, _⟩ := recover_spec cfg file
  refine canBeLogged_run ⟨cachesInBudget_init, fun key value hkey => ?_,
    by simp [Meaning.init]⟩ hlen hrun
  rw [show (Meaning.init cfg.toMapConfig).map = ShardedMap.init _ from rfl,
    ShardedMap.contents_init] at hkey
  exact absurd hkey (by simp)

/-! ## A log that reads as a map -/

/-- A recovery keeps the whole log, finds no transaction open, and has the map in the end. -/
structure Reads (cfg : StoreConfig) (file : Bytes) (m : ShardedMap cfg.toMapConfig) : Prop where
  meaning : recovered cfg file = { map := m }
  kept : (recoverFromLog cfg file).file = file

section Reads

variable (hlog : cfg.logEnabled = true) {file : Bytes} {m : ShardedMap cfg.toMapConfig}

include hlog

theorem Reads.openOn_map (h : Reads cfg file m) : (Store.openOn cfg file).map = m := by
  rw [KvStore.openOn_map hlog, h.meaning]

theorem reads_openOn (hclosed : (Store.openOn cfg file).recoveryDiscardedTransaction = false) :
    Reads cfg (Store.openOn cfg file).log.file (Store.openOn cfg file).map := by
  rw [openOn_discarded hlog] at hclosed
  have hafter := @recover_after cfg hlog file [] (by simp) _ (Meaning.run_nil _)
  rw [recovered_closed hclosed, ← KvStore.openOn_map hlog] at hafter
  exact ⟨hafter.1, hafter.2⟩

theorem Reads.append (h : Reads cfg file m) {op : Op} (hfit : op.Fits) :
    Reads cfg (file ++ op.bytes) (op.applyTo m) := by
  have hrun : Meaning.run ([op].flatMap Op.payloads) (recovered cfg file)
      = some { map := op.applyTo m } := by
    rw [h.meaning, List.flatMap_singleton]
    exact Meaning.run_payloads hfit m
  have hfile : fileAfter cfg file [op] = file ++ op.bytes := by
    rw [fileAfter_eq hlog, h.kept, List.flatMap_singleton]
    rfl
  have hafter := recover_after hlog (by simpa using hfit) hrun
  rw [hfile] at hafter
  exact ⟨hafter.1, hafter.2⟩

end Reads

/-- The log of a compaction, if nothing in it is too long to be read. -/
theorem reads_setOps {entries : List (Bytes × Bytes)} (hfits : ∀ op ∈ setOps entries, op.Fits) :
    Reads cfg (Compactor.rewrite entries)
      (Meaning.applyOps (setOps entries) (ShardedMap.init _)) := by
  obtain ⟨h1, h2⟩ := @recover_frames cfg _ [] _ (payloads_le hfits)
    (Meaning.run_ops hfits (ShardedMap.init _)) (Or.inl rfl)
  rw [List.append_nil, ← frames_flatMap, bytes_setOps] at h1 h2
  exact ⟨h1, h2⟩

/-- The log of a compaction reads as the map it was made from, with eviction off. -/
theorem reads_rewrite (hoff : cfg.maxMemoryBytes = 0) {cfg' : MapConfig} {m : ShardedMap cfg'}
    (hbudget : CachesInBudget m) (hloggable : Loggable m)
    {entries : List (Bytes × Bytes)} (hentries : entries.Perm m.snapshot) :
    ∃ m', Reads cfg (Compactor.rewrite entries) m' ∧ m'.contents = m.contents := by
  have hfits : ∀ op ∈ setOps entries, op.Fits := by
    intro op hop
    obtain ⟨entry, he, rfl⟩ := List.mem_map.mp hop
    exact hloggable _ _ ((hbudget.mem_snapshot hentries _ _).mp he)
  refine ⟨_, reads_setOps hfits, ?_⟩
  rw [Meaning.applyOps_contents hoff, updates_setOps, ShardedMap.contents_init]
  exact runUpdates_snapshot hbudget hentries

/-- A log that one configuration reads to its end another one does. -/
theorem Reads.alike {cfg' : StoreConfig}
    {R : ShardedMap cfg.toMapConfig → ShardedMap cfg'.toMapConfig → Prop}
    (hinit : R (ShardedMap.init _) (ShardedMap.init _))
    (happly : ∀ (op : Op) m m', R m m' → R (op.applyTo m) (op.applyTo m')) {file : Bytes}
    {m : ShardedMap cfg.toMapConfig} (h : Reads cfg file m) :
    ∃ m', Reads cfg' file m' ∧ R m m' := by
  obtain ⟨ps, hv, hrun, hfile, -⟩ := recover_spec cfg file
  rw [h.kept] at hfile
  have halike : Meaning.Alike R (Meaning.init cfg.toMapConfig) (Meaning.init cfg'.toMapConfig) :=
    ⟨hinit, rfl⟩
  obtain ⟨r', hrun', hmap, htxn⟩ := halike.run happly hrun
  rw [h.meaning] at hmap htxn
  obtain ⟨h1, h2⟩ := @recover_frames cfg' ps [] r' hv hrun' (Or.inl rfl)
  rw [List.append_nil, ← hfile] at h1 h2
  refine ⟨r'.map, ⟨?_, h2⟩, hmap⟩
  rw [h1]
  cases r'
  cases htxn
  rfl

/-- A record that is too long is where the log ends for whoever reads it. -/
theorem Reads.long {file : Bytes} {m : ShardedMap cfg.toMapConfig} (h : Reads cfg file m)
    {payload : Bytes} (hlong : kMaxPayloadBytes < payload.length)
    (hsize : payload.length < UInt32.size) :
    recovered cfg (file ++ frame payload) = { map := m } := by
  obtain ⟨ps, hv, hfold, hfile, -⟩ := replay_run (@RecordApplier.onRecord cfg) ({}, {}) file
  have hkept : file = ps.flatMap frame := h.kept.symm.trans hfile
  have hparse : recordCode.parse (frame payload) = .corrupt := by
    have hcorrupt := parseRecord_long [] hlong hsize
    rw [List.append_nil] at hcorrupt
    unfold recordCode
    dsimp only
    rw [hcorrupt]
  have hne : frame payload ≠ [] := by
    intro hnil
    have hlen := length_frame payload
    rw [hnil, kHeaderBytes, List.length_nil] at hlen
    omega
  obtain ⟨hst, -⟩ := replay_stopped hv hfold (FrameCode.scan_corrupt hne hparse) (by simp)
  rw [← hkept] at hst
  rw [← h.meaning, recovered, recovered, recoverFromLog, hst]
  rfl

/-! ## Reading with room for everything -/

/-- The same store, with no limit on its memory. -/
def StoreConfig.unlimited (cfg : StoreConfig) : StoreConfig := { cfg with maxMemoryBytes := 0 }

/-- With a limit there is less to be found, and nothing else. -/
theorem applyTo_unlimited {m : ShardedMap cfg.toMapConfig}
    {m' : ShardedMap cfg.unlimited.toMapConfig} (h : Within m.contents m'.contents) (op : Op) :
    Within (op.applyTo m).contents (op.applyTo m').contents := by
  rw [@applyTo_contents cfg.unlimited.toMapConfig rfl op m']
  exact (applyTo_within op m).trans (runUpdates_within h _)

theorem init_unlimited (cfg : StoreConfig) :
    Within (ShardedMap.init cfg.toMapConfig).contents
      (ShardedMap.init cfg.unlimited.toMapConfig).contents := by
  rw [ShardedMap.contents_init, ShardedMap.contents_init]
  exact Within.refl _

theorem Reads.unlimited {file : Bytes} {m : ShardedMap cfg.toMapConfig} (h : Reads cfg file m) :
    ∃ m', Reads cfg.unlimited file m' ∧ Within m.contents m'.contents :=
  @Reads.alike cfg cfg.unlimited (fun m m' => Within m.contents m'.contents)
    (init_unlimited cfg) (fun op _ _ hm => applyTo_unlimited hm op) _ _ h

theorem Reads.limited {file : Bytes} {m' : ShardedMap cfg.unlimited.toMapConfig}
    (h : Reads cfg.unlimited file m') : ∃ m, Reads cfg file m ∧ Within m.contents m'.contents :=
  @Reads.alike cfg.unlimited cfg (fun m' m => Within m.contents m'.contents)
    (init_unlimited cfg) (fun op _ _ hm => applyTo_unlimited hm op) _ _ h

end KvStore
