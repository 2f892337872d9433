import KvStore.Lib.Runs
import KvStore.Proof.Reads

/-!
# A store and its log, from the first day on

One client at a time, and no crash: operations, reads, compactions and restarts in
any order, with whatever is evicted in between. The log and the memory drift apart,
since nothing is logged when an entry is evicted; but they drift in one direction
only. Memory has nothing that the log would not put there, and the log would put
nothing there that is not the last thing written under its key.

Eviction and recovery take entries away, compaction writes down what memory has, and
a write does the same to all three. So whatever a reader finds is what was written
last, provided that what is written can be read again: the log has no transaction
open to begin with, and no record is too long for a replay.
-/

namespace KvStore

open Lib Wal Protocol

variable {cfg : StoreConfig}

namespace Lifetime

/-! ## The runs -/

/-- One call of the one client, or of whoever runs the server. -/
inductive Act where
  | write (op : Op)
  | get (key : Bytes)
  | getMany (keys : List Bytes)
  /-- The entries in the order `snapshot` lists them, and what the calls of the rewrite return. -/
  | compact (entries : List (Bytes × Bytes)) (answers : List Compactor.Answer)
  | restart
  deriving DecidableEq, Repr

/-- A store that comes and goes, and what its clients were told. -/
structure State (cfg : StoreConfig) where
  store : Store cfg
  /-- Ghost: what the acknowledged writes did, in order. -/
  acknowledged : List (Update Bytes Bytes) := []

/-- A rewrite, as far as its calls return. -/
def rewritten (log : Bytes) (entries : List (Bytes × Bytes)) (answers : List Compactor.Answer) :
    Option Compactor.Rewriting :=
  (Compactor.rewriting log none entries).run
    { path := log, temp := none, stage := .opening entries,
      result := { bytesBefore := log.length } }
    answers

/-- One call, or one restart. -/
def step (s : State cfg) : Act → Option (State cfg)
  | .write op =>
      let r := s.store.perform op {}
      some
        { store := r.1
          acknowledged := if r.2 then s.acknowledged ++ op.updates else s.acknowledged }
  | .get key => some { s with store := (s.store.get key).1 }
  | .getMany keys => some { s with store := (s.store.getMany keys).1 }
  | .compact entries answers =>
      if entries.Perm s.store.map.snapshot then
        match rewritten s.store.log.file entries answers with
        | some r =>
          if r.stage = .returned then some { s with store := (s.store.compact r).1 } else none
        | none => none
      else none
  | .restart => some { s with store := Store.openOn cfg s.store.log.file }

/-- A store that was opened on `file`. -/
def system (cfg : StoreConfig) (file : Bytes) : System (State cfg) Act where
  init s := s = { store := Store.openOn cfg file }
  step := step

/-- What is written is short enough to be read again. -/
def Act.Fits : Act → Prop
  | .write op => op.Fits
  | _ => True

instance : (a : Act) → Decidable a.Fits
  | .write op => inferInstanceAs (Decidable op.Fits)
  | .get _ | .getMany _ | .compact _ _ | .restart => inferInstanceAs (Decidable True)

/-- What the log that was found says of a key, when all of it is read into memory. -/
def found (cfg : StoreConfig) (file : Bytes) : Bytes → Option Bytes :=
  (Store.openOn cfg.unlimited (Store.openOn cfg file).log.file).map.contents

/-- What the log that was found and the acknowledged writes leave at a key: the last decides. -/
def State.written (file : Bytes) (s : State cfg) : Bytes → Option Bytes :=
  runUpdates s.acknowledged (found cfg file)

/-- A rewrite that has returned left the log alone, or put the new one in its place. -/
theorem rewritten_path {log : Bytes} {entries : List (Bytes × Bytes)}
    {answers : List Compactor.Answer} {r : Compactor.Rewriting}
    (h : rewritten log entries answers = some r) :
    r.path = if r.result.ok then Compactor.rewrite entries else log :=
  (Compactor.atomic_reachable (System.reachable_of_run (.init rfl) h)).path

/-! ## What the log and the memory owe to the writes -/

/--
Memory has nothing that the log would not put there, and the log nothing that is not
what was written last. (`logged` is what the log would put there with room for all.)
-/
structure NothingStale (file : Bytes) (s : State cfg)
    (logged : ShardedMap cfg.unlimited.toMapConfig) : Prop where
  budget : CachesInBudget s.store.map
  loggable : Loggable logged
  reads : Reads cfg.unlimited s.store.log.file logged
  memory : Within s.store.map.contents logged.contents
  log : Within logged.contents (s.written file)

variable {file : Bytes} {s s' : State cfg} {logged : ShardedMap cfg.unlimited.toMapConfig}

theorem nothingStale_init (hlog : cfg.logEnabled = true)
    (hclosed : (Store.openOn cfg file).recoveryDiscardedTransaction = false) :
    ∃ logged, NothingStale file ({ store := Store.openOn cfg file } : State cfg) logged := by
  obtain ⟨logged, hreads, hwithin⟩ := (reads_openOn hlog hclosed).unlimited
  have hfound : logged.contents = found cfg file := by
    rw [found, @Reads.openOn_map cfg.unlimited hlog _ _ hreads]
  have hbudget : CachesInBudget (Store.openOn cfg file).map := by
    rw [openOn_map hlog]
    exact (canBeLogged_recovered cfg file).budget
  have hloggable : Loggable logged := by
    have hrecovered :=
      (canBeLogged_recovered cfg.unlimited (Store.openOn cfg file).log.file).loggable
    rw [hreads.meaning] at hrecovered
    exact hrecovered
  refine ⟨logged, hbudget, hloggable, hreads, hwithin, ?_⟩
  rw [hfound]
  exact Within.refl _

theorem nothingStale_write (hlog : cfg.logEnabled = true) (h : NothingStale file s logged) {op : Op}
    (hfit : op.Fits) :
    NothingStale file
      { store := (s.store.perform op {}).1
        acknowledged := if (s.store.perform op {}).2 then s.acknowledged ++ op.updates
          else s.acknowledged }
      (op.applyTo logged) := by
  obtain ⟨hok, hfile, _, hmap⟩ := perform_ok hlog s.store op
  refine ⟨?_, ?_, ?_, ?_, ?_⟩
  · show CachesInBudget (s.store.perform op {}).1.map
    rw [hmap]
    exact h.budget.applyTo op
  · exact loggable_applyTo h.loggable op fun key value hkv => fits_set_of_update hfit hkv
  · show Reads cfg.unlimited (s.store.perform op {}).1.log.file _
    rw [hfile]
    exact @Reads.append cfg.unlimited hlog _ _ h.reads _ hfit
  · show Within (s.store.perform op {}).1.map.contents _
    rw [hmap]
    exact applyTo_unlimited h.memory op
  · rw [State.written, hok, if_pos rfl, runUpdates_append, applyTo_contents rfl]
    exact runUpdates_within h.log _

/-- Reading changes neither what can be found nor the log. -/
theorem nothingStale_read (h : NothingStale file s logged) {store : Store cfg}
    (hbudget : CachesInBudget store.map) (hcontents : store.map.contents = s.store.map.contents)
    (hlog : store.log = s.store.log) : NothingStale file { s with store := store } logged := by
  refine ⟨hbudget, h.loggable, ?_, ?_, h.log⟩
  · show Reads cfg.unlimited store.log.file logged
    rw [hlog]
    exact h.reads
  · show Within store.map.contents _
    rw [hcontents]
    exact h.memory

/-- What memory holds now is all that a compacted log has. -/
theorem nothingStale_compact (h : NothingStale file s logged) {entries : List (Bytes × Bytes)}
    (hentries : entries.Perm s.store.map.snapshot) {store : Store cfg}
    (hmap : store.map = s.store.map) (hfile : store.log.file = Compactor.rewrite entries) :
    ∃ logged', NothingStale file { s with store := store } logged' := by
  -- what memory has was in the log before, so that it fits into the log
  have hloggable : Loggable s.store.map := fun key value hkey =>
    h.loggable key value (h.memory key value hkey)
  obtain ⟨logged', hreads, hcontents⟩ :=
    @reads_rewrite cfg.unlimited rfl _ _ h.budget hloggable _ hentries
  refine ⟨logged', ?_, ?_, ?_, ?_, ?_⟩
  · show CachesInBudget store.map
    rw [hmap]
    exact h.budget
  · intro key value hkey
    rw [hcontents] at hkey
    exact hloggable key value hkey
  · show Reads cfg.unlimited store.log.file _
    rw [hfile]
    exact hreads
  · show Within store.map.contents _
    rw [hmap, hcontents]
    exact Within.refl _
  · rw [hcontents]
    exact h.memory.trans h.log

theorem nothingStale_restart (hlog : cfg.logEnabled = true) (h : NothingStale file s logged) :
    NothingStale file { s with store := Store.openOn cfg s.store.log.file } logged := by
  obtain ⟨m, hreads, hwithin⟩ := h.reads.limited
  refine ⟨?_, h.loggable, ?_, ?_, h.log⟩
  · show CachesInBudget (Store.openOn cfg s.store.log.file).map
    rw [openOn_map hlog]
    exact (canBeLogged_recovered cfg _).budget
  · show Reads cfg.unlimited (Store.openOn cfg s.store.log.file).log.file _
    rw [openOn_file hlog, hreads.kept]
    exact h.reads
  · show Within (Store.openOn cfg s.store.log.file).map.contents _
    rw [hreads.openOn_map hlog]
    exact hwithin

theorem nothingStale_step (hlog : cfg.logEnabled = true) (h : NothingStale file s logged) {a : Act}
    (hfit : a.Fits) (hs : step s a = some s') : ∃ logged', NothingStale file s' logged' := by
  cases a with
  | write op =>
      cases hs
      exact ⟨_, nothingStale_write hlog h hfit⟩
  | get key =>
      cases hs
      obtain ⟨hmap, hl⟩ := Store.get_store s.store key
      obtain ⟨cs, hm, hb⟩ := h.budget
      refine ⟨logged, nothingStale_read h ?_ ?_ hl⟩
      · rw [hmap]
        exact ⟨_, (hm.get key).1, hb.get key⟩
      · rw [hmap, ShardedMap.contents_get]
  | getMany keys =>
      cases hs
      obtain ⟨hmap, hl⟩ := Store.getMany_store s.store keys
      obtain ⟨cs, hm, hb⟩ := h.budget
      refine ⟨logged, nothingStale_read h ?_ ?_ hl⟩
      · rw [hmap]
        exact ⟨_, hm.getMany keys, hb.getMany keys⟩
      · rw [hmap, ShardedMap.contents_getMany]
  | compact entries answers =>
      rw [step] at hs
      split at hs
      · rename_i hentries
        split at hs
        · rename_i r hr
          split at hs
          · cases hs
            have hpath := rewritten_path hr
            rw [Store.compact, if_pos hlog]
            dsimp only
            -- the new file is in place before it is opened again, or nothing has changed
            cases hok : r.result.ok with
            | true =>
                rw [hok, if_pos rfl] at hpath
                exact nothingStale_compact h hentries rfl hpath
            | false => exact ⟨logged, h⟩
          · exact absurd hs (by simp)
        · exact absurd hs (by simp)
      · exact absurd hs (by simp)
  | restart =>
      cases hs
      exact ⟨logged, nothingStale_restart hlog h⟩

theorem nothingStale_reachable (hlog : cfg.logEnabled = true)
    (hclosed : (Store.openOn cfg file).recoveryDiscardedTransaction = false)
    (h : (system cfg file).ReachableBy (fun _ a => a.Fits) s) :
    ∃ logged, NothingStale file s logged := by
  refine h.invariant (I := fun s => ∃ logged, NothingStale file s logged) ?_ ?_
  · rintro s rfl
    exact nothingStale_init hlog hclosed
  · rintro s a s' ⟨logged, hs⟩ hfit hstep
    exact nothingStale_step hlog hs hfit hstep

/--
**Nothing stale is ever read.** In whatever order writes, reads, evictions,
compactions and restarts follow each other, a key that is read is absent or has the
value that was written to it last, and is absent when it was deleted last; provided
that the log the store was opened on left no transaction open, and that no record is
longer than what a replay takes.
-/
theorem read_is_last_write (hlog : cfg.logEnabled = true)
    (hclosed : (Store.openOn cfg file).recoveryDiscardedTransaction = false)
    (h : (system cfg file).ReachableBy (fun _ a => a.Fits) s) :
    (∀ key, (s.store.get key).2 = none ∨ (s.store.get key).2 = s.written file key)
      ∧ ∀ keys, List.Forall₂ (fun key result => result = none ∨ result = s.written file key) keys
          (s.store.getMany keys).2 := by
  obtain ⟨logged, hstale⟩ := nothingStale_reachable hlog hclosed h
  have hread : ∀ key, s.store.map.contents key = none
      ∨ s.store.map.contents key = s.written file key := by
    intro key
    cases hkey : s.store.map.contents key with
    | none => exact .inl rfl
    | some value => exact .inr (hstale.log key value (hstale.memory key value hkey)).symm
  refine ⟨fun key => ?_, fun keys => ?_⟩
  · rw [Store.get, ShardedMap.get_result]
    exact hread key
  · rw [Store.getMany, ShardedMap.getMany_result, List.forall₂_map_right_iff, List.forall₂_same]
    exact fun key _ => hread key

/-- Room for two short entries. -/
def tight : StoreConfig := { standalone with lockMode := .globalMutex, maxMemoryBytes := 400 }

/-- The value of the first key is overwritten after it was evicted, replayed and compacted. -/
def comeAndGo : List Act :=
  [.write (.set [97] [49]), .write (.set [98] [49]), .write (.set [99] [49]),
    .write (.set [97] [50]),
    .restart, .compact [([99], [49]), ([97], [50])] [.ok, .wrote 9, .wrote 99, .wrote 99, .ok, .ok],
    .restart]

theorem read_is_last_write_comeAndGo :
    ∃ s, (system tight []).ReachableBy (fun _ a => a.Fits) s
      ∧ (s.store.get [97]).2 = some [50] ∧ (s.store.get [98]).2 = none
      ∧ ∀ key, (s.store.get key).2 = none ∨ (s.store.get key).2 = s.written [] key := by
  obtain ⟨s, hreach, ha, hb⟩ := System.exists_reachableBy
    (p := fun s => (s.store.get [97]).2 = some [50] ∧ (s.store.get [98]).2 = none)
    (show (system tight []).ReachableBy (fun _ a => a.Fits) _ from .init rfl) comeAndGo
    (by decide +kernel) (by decide +kernel)
  exact ⟨s, hreach, ha, hb, (read_is_last_write rfl rfl hreach).1⟩

/-- A value that makes its record longer than a replay takes. -/
def tooLong : Bytes := List.replicate kMaxPayloadBytes 0

/-- The record of a value that is too long is written like any other, and is not read. -/
theorem openOn_tooLong (hlog : cfg.logEnabled = true) {op : Op} (hfit : op.Fits) {key : Bytes}
    (hkey : key.length < kMaxPayloadBytes) :
    (Store.openOn cfg (op.bytes ++ (Op.set key tooLong).bytes)).map
      = op.applyTo (ShardedMap.init _) := by
  have hnil : Reads cfg [] (ShardedMap.init _) := ⟨rfl, rfl⟩
  have hreads : Reads cfg op.bytes (op.applyTo (ShardedMap.init _)) := hnil.append hlog hfit
  have hbytes : (Op.set key tooLong).bytes = frame (Command.set key tooLong).serialize :=
    List.flatMap_singleton ..
  have hlen : (Command.set key tooLong).serialize.length = key.length + 9 + kMaxPayloadBytes := by
    rw [Command.serialize, length_appendBlob, length_appendBlob, tooLong, List.length_replicate,
      List.length_singleton]
    omega
  have hmax : 2 * kMaxPayloadBytes + 9 < UInt32.size := by decide
  rw [openOn_map hlog, hbytes, hreads.long (by omega) (by omega)]

/-- Two writes and a restart. -/
theorem reachable_restart (hlog : cfg.logEnabled = true) (op op' : Op) :
    ∃ s, (system cfg []).Reachable s ∧ s.store = Store.openOn cfg (op.bytes ++ op'.bytes)
      ∧ s.acknowledged = op.updates ++ op'.updates := by
  obtain ⟨hok, hfile, -⟩ := perform_ok hlog (Store.openOn cfg []) op
  obtain ⟨hok', hfile', -⟩ := perform_ok hlog ((Store.openOn cfg []).perform op {}).1 op'
  refine ⟨_, .tail (a := .restart) (.tail (a := .write op') (.tail (a := .write op) (.init rfl)
    trivial rfl) trivial rfl) trivial rfl, ?_, ?_⟩
  · dsimp only
    rw [hfile', hfile, (openOn_nil hlog).2]
    rfl
  · dsimp only
    rw [hok, hok']
    rfl

/-- A log in which the last transaction was never closed. -/
def leftOpen : Bytes := frames [(Command.set [107] [48]).serialize, serializeBeginMarker 1]

/--
Two ways to read what was overwritten. The log takes a record that is longer than a
replay does, so that the write is acknowledged and the value before it is back after a
restart; and behind a transaction that was never closed, a write is not read at all.
-/
theorem not_read_is_last_write_long :
    (∃ s, (system standalone []).Reachable s ∧ (s.store.get [107]).2 = some [49]
        ∧ s.written [] [107] = some tooLong)
      ∧ ∃ s, (system standalone leftOpen).Reachable s ∧ (s.store.get [107]).2 = some [48]
        ∧ s.written leftOpen [107] = some [49] := by
  constructor
  · obtain ⟨s, hreach, hstore, hack⟩ :=
      @reachable_restart standalone rfl (.set [107] [49]) (.set [107] tooLong)
    refine ⟨s, hreach, ?_, ?_⟩
    · rw [Store.get, ShardedMap.get_result, hstore, openOn_tooLong rfl (by decide) (by decide),
        applyTo_contents rfl, ShardedMap.contents_init]
      rw [Op.updates, runUpdates_cons, runUpdates_nil, Function.update_self]
    · rw [State.written, hack, runUpdates_append]
      rw [Op.updates, runUpdates_cons, runUpdates_nil, Function.update_self]
  · exact System.exists_reachableBy (.init rfl) [.write (.set [107] [49]), .restart]
      (by decide +kernel) (by decide +kernel)

end Lifetime

end KvStore
