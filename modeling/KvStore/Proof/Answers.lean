import KvStore.Proof.PowerCut
import KvStore.Proof.Sessions
import KvStore.Net.EventLoop

/-!
# What an answer is worth

A client has the answers to its lines, and then the process is killed. The store that is
opened next has what the machine of `KvStore.Proof.Sessions` had when it gave the last
answer; or it has that, and the line that nobody got an answer to any more, whole.

There are two parts to it: that memory is what the machine has, and that the log says what
memory is. A line does at most one operation to the log, or replaces it by a compaction.
-/

namespace KvStore.Answers

open Lib Wal Protocol Txn Sessions
open PowerCut (after after_append)
open Net (kMaxLineLength)
open Net.EventLoop (kReadChunk)

variable {cfg : StoreConfig}

/-! ## The operation of a line -/

/-- What a line does to the store, if it does not compact it. -/
def lineOp (session : Session) (line : Bytes) : Option Op :=
  match (parse line).type, session.transaction with
  | .set, none => some (.set (parse line).key (parse line).value)
  | .del, none => some (.del (parse line).key)
  | .commit, some t => some (.commitTransaction t.id t.mutations)
  | _, _ => none

/-- An append whose calls are short or interrupted at worst is an append. -/
theorem write_file {io : Io} (h : io.Clean) (mode : FsyncMode) (log : WriteAheadLog) (blob : Bytes)
    (records : Nat) : (log.write mode blob records io).1.file = log.file ++ blob := by
  unfold WriteAheadLog.write
  rw [writeAll_clean h.1]
  dsimp only
  rw [if_pos h.2]
  split
  · rfl
  · rfl

theorem perform_clean (hlog : cfg.logEnabled = true) {io : Io} (h : io.Clean) (st : Store cfg)
    (op : Op) :
    (st.perform op io).1.log.file = st.log.file ++ op.bytes
      ∧ (st.perform op io).1.map = op.applyTo st.map := by
  by_cases hnil : op.payloads = []
  · obtain ⟨-, hl, hm, -, ha⟩ := perform_empty st io hnil
    have hb : op.bytes = [] := by rw [Op.bytes, hnil]; rfl
    rw [hl, hm, ha, hb, List.append_nil]
    exact ⟨rfl, rfl⟩
  · obtain ⟨hl, -, hm⟩ := perform_append hlog st io hnil
    rw [append_eq_write _ _ _ hnil] at hl hm
    obtain ⟨log', offset, hw⟩ := WriteAheadLog.write_clean h cfg.fsyncMode st.log op.bytes
      op.payloads.length
    refine ⟨by rw [hl, write_file h], ?_⟩
    rw [hm, hw]
    rfl

/-- What becomes of the store when a line is handled. -/
inductive Effect (session : Session) (st : Store cfg) (line : Bytes) (w : World) :
    Handled cfg → Prop
  | wrote {r : Handled cfg} (op : Op) : lineOp session line = some op →
      r.store.log = (st.perform op w.io).1.log → r.store.map = (st.perform op w.io).1.map →
      Effect session st line w r
  | compacted {r : Handled cfg} : lineOp session line = none → (parse line).type = .compact →
      r.store = (st.compact w.rewriting).1 → Effect session st line w r
  | read {r : Handled cfg} : lineOp session line = none → r.store.log = st.log →
      (r.store.map = st.map ∨ ∃ key, r.store.map = (st.map.get key).1) →
      Effect session st line w r

/-- **What a line does to the store**: one operation, a compaction, or nothing but reading. -/
theorem handleLine_effect (hwritable : cfg.readOnly = false) {session : Session}
    (hlive : Live session) {w : World} (hio : w.io.Clean) (st : Store cfg) (line : Bytes) :
    Effect session st line w (session.handleLine st line w) := by
  -- which of the three it is can be seen from the type of the command and the transaction
  have hop : lineOp session line = match (parse line).type, session.transaction with
      | .set, none => some (.set (parse line).key (parse line).value)
      | .del, none => some (.del (parse line).key)
      | .commit, some t => some (.commitTransaction t.id t.mutations)
      | _, _ => none := rfl
  unfold Session.handleLine
  rw [if_neg (by simp [hwritable]), if_neg (by simp [hwritable])]
  dsimp only
  cases htype : (parse line).type with
  | set =>
      rw [htype] at hop
      unfold Session.write
      cases ht : session.transaction with
      | none => exact .wrote _ (by rw [hop, ht]) rfl rfl
      | some t => exact .read (by rw [hop, ht]) rfl (.inl rfl)
  | del =>
      rw [htype] at hop
      unfold Session.write
      cases ht : session.transaction with
      | none => exact .wrote _ (by rw [hop, ht]) rfl rfl
      | some t => exact .read (by rw [hop, ht]) rfl (.inl rfl)
  | get =>
      rw [htype] at hop
      refine .read hop ?_ ?_
      · dsimp only
        split
        · rename_i t _
          unfold Transaction.get
          split
          · rfl
          · exact (Store.get_store st _).2
        · exact (Store.get_store st _).2
      · dsimp only
        split
        · rename_i t _
          unfold Transaction.get
          split
          · exact .inl rfl
          · exact .inr ⟨_, (Store.get_store st _).1⟩
        · exact .inr ⟨_, (Store.get_store st _).1⟩
  | begin =>
      rw [htype] at hop
      cases ht : session.transaction with
      | none => exact .read hop rfl (.inl rfl)
      | some t => exact .read hop rfl (.inl rfl)
  | commit =>
      rw [htype] at hop
      cases ht : session.transaction with
      | none => exact .read (by rw [hop, ht]) rfl (.inl rfl)
      | some t =>
          rw [ht] at hop
          obtain ⟨hok, -⟩ := Store.commitTransaction_clean hio st t.id t.mutations
          dsimp only
          rw [Transaction.commit, if_pos (hlive t ht)]
          split
          · rename_i heq
            split at heq
            · rename_i hfalse
              rw [hfalse] at hok
              exact absurd hok (by simp)
            · exact absurd heq (by simp)
          · rename_i st' t' heq
            split at heq
            · exact absurd heq (by simp)
            · rename_i st'' htrue
              obtain ⟨rfl, rfl, -⟩ := by simpa using heq
              -- a finished transaction is destroyed without a trace
              have hdestroy : t.finished.destroy st'' = st'' :=
                if_neg (by simp [Transaction.finished])
              refine .wrote _ hop ?_ ?_
              · show (t.finished.destroy st'').log
                  = (st.commitTransaction t.id t.mutations w.io).1.log
                rw [hdestroy, htrue]
              · show (t.finished.destroy st'').map
                  = (st.commitTransaction t.id t.mutations w.io).1.map
                rw [hdestroy, htrue]
  | rollback =>
      rw [htype] at hop
      cases ht : session.transaction with
      | none => exact .read (by rw [hop, ht]) rfl (.inl rfl)
      | some t =>
          refine .read (by rw [hop, ht]) ?_ (.inl ?_)
          · show ((t.rollback st).2.destroy (t.rollback st).1).log = st.log
            unfold Transaction.rollback
            rw [if_pos (hlive t ht)]
            rfl
          · show ((t.rollback st).2.destroy (t.rollback st).1).map = st.map
            unfold Transaction.rollback
            rw [if_pos (hlive t ht)]
            rfl
  | compact =>
      rw [htype] at hop
      exact .compacted hop htype rfl
  | stats =>
      rw [htype] at hop
      exact .read hop rfl (.inl rfl)
  | quit =>
      rw [htype] at hop
      exact .read hop rfl (.inl rfl)
  | invalid =>
      rw [htype] at hop
      exact .read hop rfl (.inl rfl)

/-! ## What comes from a line fits into a log -/

theorem skipSpaces_length {s rest : Bytes} (h : skipSpaces s = some rest) :
    rest.length ≤ s.length := by
  unfold skipSpaces at h
  split at h
  · exact absurd h (by simp)
  · cases h
    exact (List.dropWhile_suffix _).length_le

/-- The key and the value are two parts of the line. -/
theorem parse_length (line : Bytes) :
    (parse line).key.length + (parse line).value.length ≤ line.length := by
  unfold parse
  split
  · simp [invalid]
  rename_i text htext
  have hline := skipSpaces_length htext
  have hverb := (List.dropWhile_suffix (l := text) fun c => decide (c ≠ Repl.space)).length_le
  dsimp only
  -- the commands without arguments, and those that are unknown
  iterate 7
    split
    · simp [invalid]
  split
  · simp [invalid]
  rename_i rest hrest
  have hrest := skipSpaces_length hrest
  have hsplit := congrArg List.length
    (List.takeWhile_append_dropWhile (l := rest) (p := fun c => decide (c ≠ Repl.space)))
  rw [List.length_append] at hsplit
  split
  · dsimp only [List.length_nil]
    omega
  · split
    · simp [invalid]
    · rename_i value hvalue
      have hvalue := skipSpaces_length hvalue
      dsimp only
      omega

/-- A line that an engine hands on: it had some of it, and then the piece with the end came. -/
def kLongestLine : Nat := kMaxLineLength + kReadChunk

/-- What was put into the transaction came from lines. -/
def FromLines (session : Session) : Prop :=
  ∀ t ∈ session.transaction, ∀ mutation ∈ t.mutations,
    mutation.key.length + mutation.value.length ≤ kLongestLine

theorem mutationPayload_length {mutation : Mutation}
    (h : mutation.key.length + mutation.value.length ≤ kLongestLine) :
    (Store.mutationPayload mutation).length ≤ kMaxPayloadBytes := by
  unfold kLongestLine kMaxLineLength kReadChunk at h
  unfold Store.mutationPayload kMaxPayloadBytes
  split
  · simp only [Command.serialize, length_appendBlob, List.length_singleton]
    omega
  · simp only [Command.serialize, length_appendBlob, List.length_singleton]
    omega

theorem marker_length (tag : UInt8) (txnId : UInt64) :
    (appendU64 [tag] txnId).length ≤ kMaxPayloadBytes := by
  simp [appendU64, kMaxPayloadBytes]

/-- **The operation of a line fits into the log.** -/
theorem fits_lineOp {session : Session} (hsession : FromLines session) {line : Bytes}
    (hline : line.length ≤ kLongestLine) {op : Op} (hop : lineOp session line = some op) :
    op.Fits := by
  have hlen := (parse_length line).trans hline
  unfold lineOp at hop
  split at hop
  · cases hop
    intro p hp
    cases List.mem_singleton.mp hp
    exact @mutationPayload_length { key := (parse line).key, value := (parse line).value } hlen
  · cases hop
    intro p hp
    cases List.mem_singleton.mp hp
    exact @mutationPayload_length { erase := true, key := (parse line).key }
      (le_trans (Nat.add_le_add_left (Nat.zero_le _) _) hlen)
  · rename_i t _ ht
    cases hop
    intro p hp
    rw [Op.payloads] at hp
    split at hp
    · exact absurd hp (by simp)
    · rcases List.mem_cons.mp hp with rfl | hp
      · exact marker_length _ _
      rcases List.mem_append.mp hp with hp | hp
      · obtain ⟨mutation, hm, rfl⟩ := List.mem_map.mp hp
        exact mutationPayload_length (hsession t ht mutation hm)
      · cases List.mem_singleton.mp hp
        exact marker_length _ _
  · exact absurd hop (by simp)

theorem fromLines_none : FromLines {} := by simp [FromLines]

theorem fromLines_write {session : Session} (h : FromLines session) {st : Store cfg}
    {inside : Transaction → Transaction}
    (hinside : ∀ t, ∀ mutation ∈ (inside t).mutations, mutation ∈ t.mutations
      ∨ mutation.key.length + mutation.value.length ≤ kLongestLine)
    (outside : Store cfg × Except LogError Unit) :
    FromLines (session.write st inside outside).session := by
  unfold Session.write
  split
  · rename_i t ht
    intro t' ht' mutation hm
    cases ht'
    exact (hinside t mutation hm).elim (h t ht mutation) id
  · exact h

theorem mem_push {t : Transaction} {added mutation : Mutation}
    (h : mutation ∈ (t.push added).mutations) :
    mutation ∈ t.mutations ∨ mutation = added :=
  (List.mem_append.mp h).imp id List.mem_singleton.mp

theorem fromLines_handleLine {session : Session} (h : FromLines session) {line : Bytes}
    (hline : line.length ≤ kLongestLine) (st : Store cfg) (w : World) :
    FromLines (session.handleLine st line w).session := by
  have hlen := (parse_length line).trans hline
  unfold Session.handleLine
  generalize parse line = cmd at hlen
  obtain ⟨type, key, value, error⟩ := cmd
  dsimp only at hlen ⊢
  split
  · exact h
  split
  · exact h
  cases type with
  | set =>
      refine fromLines_write h (fun t mutation hm => ?_) _
      unfold Transaction.set at hm
      split at hm
      · rcases mem_push hm with hm | rfl
        · exact .inl hm
        · exact .inr hlen
      · exact .inl hm
  | del =>
      refine fromLines_write h (fun t mutation hm => ?_) _
      unfold Transaction.del at hm
      split at hm
      · rcases mem_push hm with hm | rfl
        · exact .inl hm
        · exact .inr (le_trans (Nat.add_le_add_left (Nat.zero_le _) _) hlen)
      · exact .inl hm
  | begin =>
      dsimp only
      split
      · exact h
      · intro t ht mutation hm
        cases ht
        exact absurd hm (by simp [Transaction.make])
  | commit =>
      dsimp only
      split
      · exact h
      · rename_i t ht
        split
        · rename_i st' t' heq
          -- a commit that fails leaves the transaction as it was
          have hsame : t' = t := by
            unfold Transaction.commit at heq
            split at heq
            · split at heq
              · exact (congrArg (fun r => r.2.1) heq).symm
              · exact absurd heq (by simp)
            · exact (congrArg (fun r => r.2.1) heq).symm
          intro t'' ht'' mutation hm
          cases ht''
          exact h t ht mutation (hsame ▸ hm)
        · exact fromLines_none
  | rollback =>
      dsimp only
      split
      · exact h
      · exact fromLines_none
  | get => exact h
  | stats => exact h
  | compact => exact h
  | quit => exact h
  | invalid => exact h

/-! ## The log says what memory is -/

/-- The log is a list of operations, and they leave what memory has. -/
structure LogMeansMemory (st : Store cfg) (ops : List Op) : Prop where
  fits : ∀ op ∈ ops, op.Fits
  file : st.log.file = ops.flatMap Op.bytes
  contents : st.map.contents = after ops
  budget : CachesInBudget st.map

namespace LogMeansMemory

variable {st : Store cfg} {ops : List Op}

theorem init (hlog : cfg.logEnabled = true) : LogMeansMemory (Store.openOn cfg []) [] := by
  obtain ⟨hmap, hfile⟩ := openOn_nil hlog
  refine ⟨by simp, hfile, ?_, ?_⟩
  · rw [hmap, ShardedMap.contents_init]
    rfl
  · rw [hmap]
    exact cachesInBudget_init

theorem perform (h : LogMeansMemory st ops) (hlog : cfg.logEnabled = true)
    (hoff : cfg.maxMemoryBytes = 0)
    {op : Op} (hfit : op.Fits) {io : Io} (hio : io.Clean) {st' : Store cfg}
    (hl : st'.log = (st.perform op io).1.log) (hm : st'.map = (st.perform op io).1.map) :
    LogMeansMemory st' (ops ++ [op]) := by
  obtain ⟨hfile, hmap⟩ := perform_clean hlog hio st op
  refine ⟨Op.fits_concat h.fits hfit, ?_, ?_, ?_⟩
  · rw [hl, hfile, h.file, List.flatMap_append, List.flatMap_singleton]
  · rw [hm, hmap, applyTo_contents hoff, h.contents, after_append, List.flatMap_singleton]
  · rw [hm, hmap]
    exact h.budget.applyTo op

theorem fits_entries (h : LogMeansMemory st ops) {entries : List (Bytes × Bytes)}
    (hentries : entries.Perm st.map.snapshot) : ∀ op ∈ setOps entries, op.Fits := by
  intro op hop
  obtain ⟨⟨key, value⟩, he, rfl⟩ := List.mem_map.mp hop
  obtain ⟨cs, hholds, _⟩ := h.budget
  have hval := (hholds.mem_snapshot key value).mp (hentries.mem_iff.mp he)
  rw [h.contents] at hval
  obtain ⟨op', hop', hu⟩ := List.mem_flatMap.mp (mem_of_runUpdates hval)
  exact fits_set_of_update (h.fits op' hop') hu

/-- A compacted log says the same. -/
theorem rewritten (h : LogMeansMemory st ops) {entries : List (Bytes × Bytes)}
    (hentries : entries.Perm st.map.snapshot) {st' : Store cfg} (hm : st'.map = st.map)
    (hfile : st'.log.file = Compactor.rewrite entries) : LogMeansMemory st' (setOps entries) := by
  refine ⟨h.fits_entries hentries, by rw [bytes_setOps, hfile], ?_, hm ▸ h.budget⟩
  rw [hm, after, updates_setOps, runUpdates_snapshot h.budget hentries]

/-- Reading moves entries in their recency lists, and no more. -/
theorem read (h : LogMeansMemory st ops) {st' : Store cfg} (hl : st'.log = st.log)
    (hm : st'.map = st.map ∨ ∃ key, st'.map = (st.map.get key).1) : LogMeansMemory st' ops := by
  refine ⟨h.fits, hl ▸ h.file, ?_, ?_⟩
  · rcases hm with hm | ⟨key, hm⟩
    · rw [hm, h.contents]
    · rw [hm, ShardedMap.contents_get, h.contents]
  · rcases hm with hm | ⟨key, hm⟩
    · exact hm ▸ h.budget
    · obtain ⟨cs, hholds, hbounded⟩ := h.budget
      rw [hm]
      exact ⟨_, (hholds.get key).1, hbounded.get key⟩

/-- A store that is opened on the log has what memory had; torn, it may have one operation more. -/
theorem reopen (h : LogMeansMemory st ops) (hlog : cfg.logEnabled = true)
    (hoff : cfg.maxMemoryBytes = 0) {op : Op} (hfit : op.Fits) (k : Nat) :
    (Store.openOn cfg (st.log.file ++ op.bytes.take k)).map.contents = st.map.contents
      ∨ (Store.openOn cfg (st.log.file ++ op.bytes.take k)).map.contents
        = runUpdates op.updates st.map.contents := by
  have hrecorded : PowerCut.FileOfOps
      { bytes := ops.flatMap Op.bytes, synced := (ops.flatMap Op.bytes).length, base := ops
        before := ops } :=
    ⟨h.fits, by simp, by simp, rfl, Nat.le_refl _, Nat.le_refl _⟩
  have hone : ∀ op' ∈ [op], op'.Fits := by simpa using hfit
  obtain ⟨j, ⟨hj, -⟩, hcontents, -⟩ := hrecorded.reopen hlog hoff hone k
  rw [List.flatMap_singleton, ← h.file] at hcontents
  rw [hcontents, h.contents]
  rcases Nat.le_one_iff_eq_zero_or_eq_one.mp hj with rfl | rfl
  · exact .inl (congrArg after (List.append_nil _))
  · refine .inr ?_
    have htake : [op].take 1 = [op] := rfl
    rw [htake, after_append, List.flatMap_singleton]

end LogMeansMemory

/-! ## Every run -/

/-- A rewrite of what the store has, as far as it is. -/
def Compacts (st : Store cfg) (r : Compactor.Rewriting) : Prop :=
  ∃ entries temp, entries.Perm st.map.snapshot
    ∧ (Compactor.rewriting st.log.file temp entries).Reachable r

/-- The file at the path of the log when the process is killed while it handles a line. -/
inductive Left (st : Store cfg) (session : Session) (line : Bytes) : Bytes → Prop
  | before : Left st session line st.log.file
  | appending {op : Op} (k : Nat) : lineOp session line = some op →
      Left st session line (st.log.file ++ op.bytes.take k)
  | compacting {r : Compactor.Rewriting} : (parse line).type = .compact → Compacts st r →
      Left st session line r.path

variable {ι : Type} [DecidableEq ι]

/-- The sessions of a store, and the machine they are compared with. -/
structure Both (cfg : StoreConfig) (ι : Type) where
  real : Sessions.State cfg ι
  machine : Machine ι

/-- A store that was started with an empty log, with its clients, beside the machine. -/
def both (cfg : StoreConfig) (ι : Type) [DecidableEq ι] : System (Both cfg ι) (Event ι) where
  init s := s =
    { real := { store := Store.openOn cfg [] }, machine := { contents := fun _ => none } }
  step s e := (Sessions.step s.real e).map fun t => { real := t, machine := s.machine.next e }

/-- The line came through a connection, no append fails, and a compaction runs to its end. -/
def Orderly (s : Both cfg ι) : Event ι → Prop
  | .line _ line w => line.length ≤ kLongestLine ∧ w.io.Clean
      ∧ ((parse line).type = .compact → Compacts s.real.store w.rewriting)
  | _ => True

/-- Memory is what the machine has, and the log says what memory is. -/
structure Inv (s : Both cfg ι) : Prop where
  related : MatchesMachine s.real s.machine
  fromLines : ∀ i, ∀ session ∈ s.real.sessions i, FromLines session
  logged : ∃ ops, LogMeansMemory s.real.store ops

/-- The path names the log as it was, or what memory has. -/
theorem Compacts.path {st : Store cfg} {r : Compactor.Rewriting} (h : Compacts st r) :
    (r.result.ok = false ∧ r.path = st.log.file) ∨ ∃ entries, entries.Perm st.map.snapshot
      ∧ r.result.ok = true ∧ r.path = Compactor.rewrite entries := by
  obtain ⟨entries, temp, hentries, hreach⟩ := h
  have hpath := (Compactor.atomic_reachable hreach).path
  cases hok : r.result.ok with
  | true => exact .inr ⟨entries, hentries, rfl, by rw [hpath, if_pos hok]⟩
  | false => exact .inl ⟨rfl, by rw [hpath, if_neg (by simp [hok])]⟩

theorem LogMeansMemory.compact {st : Store cfg} {ops : List Op} (h : LogMeansMemory st ops)
    (hlog : cfg.logEnabled = true) {r : Compactor.Rewriting} (hr : Compacts st r) :
    ∃ ops', LogMeansMemory (st.compact r).1 ops' := by
  unfold Store.compact
  rw [if_pos hlog]
  rcases hr.path with ⟨hok, -⟩ | ⟨entries, hentries, hok, hpath⟩
  · rw [if_neg (by simp [hok])]
    exact ⟨ops, h⟩
  · rw [if_pos hok]
    exact ⟨_, h.rewritten hentries rfl hpath⟩

/-- A line leaves a log that says what memory is. -/
theorem LogMeansMemory.handleLine {st : Store cfg} {ops : List Op} (h : LogMeansMemory st ops)
    (hlog : cfg.logEnabled = true) (hoff : cfg.maxMemoryBytes = 0)
    (hwritable : cfg.readOnly = false) {session : Session} (hlive : Live session)
    (hfrom : FromLines session) {line : Bytes} (hline : line.length ≤ kLongestLine) {w : World}
    (hio : w.io.Clean) (hr : (parse line).type = .compact → Compacts st w.rewriting) :
    ∃ ops', LogMeansMemory (session.handleLine st line w).store ops' := by
  rcases handleLine_effect hwritable hlive hio st line with
    ⟨op, hop, hl, hm⟩ | ⟨-, htype, hstore⟩ | ⟨-, hl, hm⟩
  · exact ⟨_, h.perform hlog hoff (fits_lineOp hfrom hline hop) hio hl hm⟩
  · rw [hstore]
    exact h.compact hlog (hr htype)
  · exact ⟨ops, h.read hl hm⟩

theorem destroy_log (session : Session) (st : Store cfg) :
    (session.destroy st).log = st.log ∧ (session.destroy st).map = st.map := by
  unfold Session.destroy
  split
  · unfold Transaction.destroy Transaction.rollback
    split
    · exact ⟨rfl, rfl⟩
    · exact ⟨rfl, rfl⟩
  · exact ⟨rfl, rfl⟩

theorem inv_init (hlog : cfg.logEnabled = true) {s : Both cfg ι} (h : (both cfg ι).init s) :
    Inv s := by
  cases h
  refine ⟨⟨?_, fun _ => rfl, by simp, .nil⟩, by simp, [], .init hlog⟩
  rw [(LogMeansMemory.init hlog).contents]
  rfl

/-- The sessions, one of which is another. -/
theorem fromLines_update {sessions : ι → Option Session}
    (h : ∀ i, ∀ session ∈ sessions i, FromLines session) (i : ι) {session : Option Session}
    (hnew : ∀ x ∈ session, FromLines x) :
    ∀ j, ∀ x ∈ Function.update sessions i session j, FromLines x := by
  intro j x hx
  by_cases hj : j = i
  · subst hj
    rw [Function.update_self] at hx
    exact hnew x hx
  · rw [Function.update_of_ne hj] at hx
    exact h j x hx

theorem inv_step (hlog : cfg.logEnabled = true) (hoff : cfg.maxMemoryBytes = 0)
    (hwritable : cfg.readOnly = false) {s s' : Both cfg ι} {e : Event ι} (h : Inv s)
    (hok : Orderly s e) (hs : (both cfg ι).step s e = some s') : Inv s' := by
  obtain ⟨t, ht, rfl⟩ := Option.map_eq_some_iff.mp hs
  obtain ⟨ops, hops⟩ := h.logged
  have hclean : e.Clean := by
    cases e with
    | line i line w => exact hok.2.1
    | connect i => trivial
    | disconnect i => trivial
  refine ⟨matchesMachine_step hoff hwritable h.related hclean ht, ?_, ?_⟩
  · cases e with
    | connect i =>
        rw [Sessions.step] at ht
        split at ht
        · cases ht
          exact fromLines_update h.fromLines i (by rintro x ⟨⟩; exact fromLines_none)
        · exact absurd ht (by simp)
    | line i line w =>
        rw [Sessions.step] at ht
        split at ht
        · exact absurd ht (by simp)
        · rename_i session hi
          cases ht
          have hfrom := fromLines_handleLine (h.fromLines i session hi) hok.1 s.real.store w
          exact fromLines_update h.fromLines i (by rintro x ⟨⟩; exact hfrom)
    | disconnect i =>
        rw [Sessions.step] at ht
        split at ht
        · exact absurd ht (by simp)
        · cases ht
          exact fromLines_update h.fromLines i (by simp)
  · cases e with
    | connect i =>
        rw [Sessions.step] at ht
        split at ht
        · cases ht
          exact ⟨ops, hops⟩
        · exact absurd ht (by simp)
    | line i line w =>
        rw [Sessions.step] at ht
        split at ht
        · exact absurd ht (by simp)
        · rename_i session hi
          cases ht
          exact hops.handleLine hlog hoff hwritable (h.related.live i session hi)
            (h.fromLines i session hi) hok.1 hclean hok.2.2
    | disconnect i =>
        rw [Sessions.step] at ht
        split at ht
        · exact absurd ht (by simp)
        · rename_i session hi
          cases ht
          obtain ⟨hl, hm⟩ := destroy_log session s.real.store
          exact ⟨ops, hops.read hl (.inl hm)⟩

/-- The operation of a line is what the machine does to the contents. -/
theorem respond_lineOp (hlog : cfg.logEnabled = true) (hoff : cfg.maxMemoryBytes = 0)
    (hwritable : cfg.readOnly = false) {session : Session} (hlive : Live session)
    (st : Store cfg) {line : Bytes} {op : Op} (hop : lineOp session line = some op) :
    (respond st.map.contents (pendingOf session) (parse line)).1
      = runUpdates op.updates st.map.contents := by
  have hclean : ({} : World).io.Clean := ⟨by simp, rfl⟩
  have hfollows := handleLine_follows hoff hwritable hlive hclean st line
  rcases handleLine_effect hwritable hlive hclean st line with
    ⟨op', hop', -, hm⟩ | ⟨hnone, -, -⟩ | ⟨hnone, -, -⟩
  · cases hop.symm.trans hop'
    rw [← hfollows.contents, hm, (perform_clean hlog hclean st op).2, applyTo_contents hoff]
  · exact absurd (hnone.symm.trans hop) (by simp)
  · exact absurd (hnone.symm.trans hop) (by simp)

/-- A log that says what memory is, opened. -/
theorem LogMeansMemory.openOn {st : Store cfg} {ops : List Op} (h : LogMeansMemory st ops)
    (hlog : cfg.logEnabled = true) (hoff : cfg.maxMemoryBytes = 0) :
    (Store.openOn cfg st.log.file).map.contents = st.map.contents := by
  rw [h.file, (openOn_ops hlog h.fits).1, Meaning.applyOps_contents hoff, h.contents,
    ShardedMap.contents_init, after]

/--
**An answer survives a kill.** Let the store be writable, have a log and evict nothing, and
let it start empty. Whatever lines came through connections, from whichever sessions and in
whatever order, with compactions between them, as long as no append fails: the replies are
those of the machine, and a store that is opened on the log has what the machine has. Killed
while a line is handled, in the middle of the append or of the compaction, it has what the
machine had before the line, or what it has after it; of a transaction there is all or nothing.
-/
theorem answers_survive_kill (hlog : cfg.logEnabled = true) (hoff : cfg.maxMemoryBytes = 0)
    (hwritable : cfg.readOnly = false) {s : Both cfg ι}
    (h : (both cfg ι).ReachableBy Orderly s) :
    List.Forall₂ Agrees s.real.replies s.machine.outcomes
      ∧ (Store.openOn cfg s.real.store.log.file).map.contents = s.machine.contents
      ∧ ∀ i, ∀ session ∈ s.real.sessions i, ∀ line w file, line.length ≤ kLongestLine →
        Left s.real.store session line file →
        (Store.openOn cfg file).map.contents = s.machine.contents
          ∨ (Store.openOn cfg file).map.contents = (s.machine.next (.line i line w)).contents := by
  have hinv : Inv s := h.invariant (I := Inv) (fun _ => inv_init hlog)
    fun _ _ _ hi hok hs => inv_step hlog hoff hwritable hi hok hs
  obtain ⟨ops, hops⟩ := hinv.logged
  have hcontents := hinv.related.contents
  refine ⟨hinv.related.replies, (hops.openOn hlog hoff).trans hcontents, ?_⟩
  intro i session hi line w file hline hleft
  have hlive := hinv.related.live i session hi
  cases hleft with
  | before => exact .inl ((hops.openOn hlog hoff).trans hcontents)
  | @appending op k hop =>
      have hpending : pendingOf session = s.machine.pending i := by
        rw [← hinv.related.pending, hi]
        rfl
      have hnext := respond_lineOp hlog hoff hwritable hlive s.real.store hop
      rw [hcontents, hpending] at hnext
      rcases hops.reopen hlog hoff (fits_lineOp (hinv.fromLines i session hi) hline hop) k with
        hold | hnew
      · exact .inl (hold.trans hcontents)
      · rw [hcontents] at hnew
        exact .inr (hnew.trans hnext.symm)
  | @compacting r htype hr =>
      rcases hr.path with ⟨-, hpath⟩ | ⟨entries, hentries, -, hpath⟩
      · rw [hpath]
        exact .inl ((hops.openOn hlog hoff).trans hcontents)
      · -- the new log is a list of operations that leave what memory has
        have hnew : LogMeansMemory { s.real.store with
            log := s.real.store.log.reopenAfterCompaction r.path } _ :=
          hops.rewritten hentries rfl hpath
        exact .inl ((hnew.openOn hlog hoff).trans hcontents)

/-- A compaction of a log with one entry, whose calls all succeed. -/
def compaction (log key value : Bytes) : Option Compactor.Rewriting :=
  Lifetime.rewritten log [(key, value)] [.ok, .wrote 100, .ok, .ok]

/-- What an orderly event is among those that compact one entry. -/
def Orderly.One (s : Both standalone Bool) : Event Bool → Prop
  | .line _ line w => line.length ≤ kLongestLine ∧ w.io.Clean
      ∧ ((parse line).type = .compact → s.real.store.map.snapshot = [([97], [51])]
        ∧ compaction s.real.store.log.file [97] [51] = some w.rewriting)
  | _ => True

instance : ∀ (s : Both standalone Bool) (e : Event Bool), Decidable (Orderly.One s e)
  | s, .line _ line w => inferInstanceAs (Decidable (line.length ≤ kLongestLine ∧ w.io.Clean
      ∧ ((parse line).type = .compact → s.real.store.map.snapshot = [([97], [51])]
        ∧ compaction s.real.store.log.file [97] [51] = some w.rewriting)))
  | _, .connect _ => .isTrue trivial
  | _, .disconnect _ => .isTrue trivial

theorem Orderly.One.orderly {s : Both standalone Bool} {e : Event Bool} (h : Orderly.One s e) :
    Orderly s e := by
  cases e with
  | line i line w =>
      refine ⟨h.1, h.2.1, fun htype => ?_⟩
      obtain ⟨hsnapshot, hr⟩ := h.2.2 htype
      exact ⟨_, none, .of_eq hsnapshot.symm, System.reachable_of_run (.init rfl) hr⟩
  | connect i => trivial
  | disconnect i => trivial

/-- One session writes and compacts while the other is in a transaction, which it then commits. -/
def beforeCommit : List (Event Bool) :=
  [.connect false, .line false (Repl.ascii "BEGIN") {}, .line false (Repl.ascii "SET a 1") {},
    .line false (Repl.ascii "DEL b") {}, .connect true, .line true (Repl.ascii "SET a 3") {},
    .line true (Repl.ascii "COMPACT")
      { rewriting := (compaction ((Op.set [97] [51]).bytes) [97] [51]).getD
          { path := [], temp := none, stage := .returned, result := {} } }]

theorem answers_survive_kill_committing :
    ∃ s session op, (both standalone Bool).ReachableBy Orderly s
      ∧ s.real.sessions false = some session ∧ s.real.replies.length = 5
      ∧ lineOp session (Repl.ascii "COMMIT") = some op
      ∧ ∀ k, let found := (Store.openOn standalone (s.real.store.log.file ++ op.bytes.take k)).map
        found.contents = s.machine.contents
          ∨ found.contents
            = (s.machine.next (.line false (Repl.ascii "COMMIT") {})).contents := by
  obtain ⟨s, session, hs, hsession, hlen, hop⟩ :=
    System.exists_reachableBy_some
      (show (both standalone Bool).ReachableBy Orderly.One _ from .init rfl) beforeCommit
        (by decide +kernel) (g := fun s => s.real.sessions false)
      (p := fun s session => s.real.replies.length = 5
        ∧ (lineOp session (Repl.ascii "COMMIT")).isSome = true) (by decide +kernel)
  obtain ⟨op, hop⟩ := Option.isSome_iff_exists.mp hop
  have hreach : (both standalone Bool).ReachableBy Orderly s :=
    hs.mono fun _ _ => Orderly.One.orderly
  refine ⟨s, session, op, hreach, hsession, hlen, hop, fun k => ?_⟩
  exact (answers_survive_kill rfl rfl rfl hreach).2.2 false session hsession _ _ _ (by decide)
    (.appending k hop)

end KvStore.Answers
