import KvStore.Proof.Lifetime
import KvStore.Store.Disk

/-!
# What a power cut leaves

A log is written in one direction only, so what is on the disk of it is a front part. The
operations that a power cut leaves are therefore the first so many of all there were: none
of them in part, and none without those before it. What is certain is how many there are
at least, which is a question of when the log was last synced, and of whether the name of
the file had been synced before.

A file is known by the operations it stands for. An older file, which the path may name
again after a power cut, stands for operations that the newer ones stand for as well. No file
at all, which is what the path may name as long as the directory has not been synced since
the log was created, stands for none.
-/

namespace KvStore.PowerCut

open Lib Wal Protocol

/-- What the operations leave, from the first day on. -/
def after (ops : List Op) : Bytes → Option Bytes :=
  runUpdates (ops.flatMap Op.updates) fun _ => none

theorem after_append (ops ops' : List Op) :
    after (ops ++ ops') = runUpdates (ops'.flatMap Op.updates) (after ops) := by
  rw [after, List.flatMap_append, runUpdates_append]
  rfl

/-! ## How many operations fit -/

theorem longestWithin_fitting (ops : List Op) (n : Nat) :
    LongestWithin Op.bytes ops n (fitting ops n) := by
  refine ⟨Nat.findGreatest_le _, ?_, fun i hi hfit => Nat.le_findGreatest hi hfit⟩
  exact Nat.findGreatest_spec (P := fun i => ((ops.take i).flatMap Op.bytes).length ≤ n)
    (Nat.zero_le _) (by simp)

theorem LongestWithin.unique {ops : List Op} {n i j : Nat} (hi : LongestWithin Op.bytes ops n i)
    (hj : LongestWithin Op.bytes ops n j) : i = j :=
  Nat.le_antisymm (hj.2.2 i hi.1 hi.2.1) (hi.2.2 j hj.1 hj.2.1)

/-- With more room, and more to come, no fewer operations fit. -/
theorem take_fitting_front {ops ops' : List Op} {n n' : Nat} (hops : ops <+: ops') (hn : n ≤ n') :
    ops.take (fitting ops n) <+: ops'.take (fitting ops' n') := by
  obtain ⟨hle, hfit, -⟩ := longestWithin_fitting ops n
  have hsame : ops'.take (fitting ops n) = ops.take (fitting ops n) := by
    obtain ⟨more, rfl⟩ := hops
    exact List.take_append_of_le_length hle
  have hmore := (longestWithin_fitting ops' n').2.2 (fitting ops n) (hle.trans hops.length_le)
    (by rw [hsame]; exact hfit.trans hn)
  rw [← hsame]
  exact List.take_prefix_take_left hmore

/-! ## Files -/

/-- The file is the operations it began with, and those that were appended to it. -/
structure FileOfOps (f : DiskFile) : Prop where
  fitsBase : ∀ op ∈ f.base, op.Fits
  fitsSince : ∀ op ∈ f.since, op.Fits
  bytes : f.bytes = (f.base ++ f.since).flatMap Op.bytes
  /-- A compaction writes down what the operations before it have left. -/
  contents : after f.base = after f.before
  /-- It was given its name when it was on the disk. -/
  synced : f.baseBytes ≤ f.synced
  synced_le : f.synced ≤ f.bytes.length

/-- The operations of the file that are on the disk. -/
def DiskFile.safe (f : DiskFile) : List Op :=
  f.before ++ f.since.take (fitting f.since (f.synced - f.baseBytes))

section File

variable {cfg : StoreConfig} {f : DiskFile}

theorem FileOfOps.length_bytes (h : FileOfOps f) :
    f.bytes.length = f.baseBytes + (f.since.flatMap Op.bytes).length := by
  rw [h.bytes, List.flatMap_append, List.length_append]
  rfl

/-- A file that is all on the disk has all of its operations there. -/
theorem FileOfOps.safe_of_synced (h : FileOfOps f) (hsynced : f.synced = f.bytes.length) :
    f.safe = f.history := by
  have hall : fitting f.since (f.synced - f.baseBytes) = f.since.length := by
    refine Nat.le_antisymm (longestWithin_fitting _ _).1 ?_
    refine (longestWithin_fitting _ _).2.2 _ (Nat.le_refl _) ?_
    rw [List.take_length, hsynced, h.length_bytes]
    omega
  rw [DiskFile.safe, hall, List.take_length]
  rfl

theorem safe_front (f : DiskFile) : f.safe <+: f.history :=
  (List.prefix_append_right_inj _).mpr (List.take_prefix _ _)

theorem FileOfOps.sync (h : FileOfOps f) : FileOfOps f.sync :=
  ⟨h.fitsBase, h.fitsSince, h.bytes, h.contents, h.synced.trans h.synced_le, Nat.le_refl _⟩

theorem FileOfOps.safe_sync (h : FileOfOps f) : f.sync.safe = f.history := h.sync.safe_of_synced rfl

/--
**A store that is opened on a file that was cut**, while `ops` were appended to it, has what
the first so many of them have left, as many as there is room for.
-/
theorem FileOfOps.reopen (h : FileOfOps f) (hlog : cfg.logEnabled = true)
    (hoff : cfg.maxMemoryBytes = 0) {ops : List Op} (hfits : ∀ op ∈ ops, op.Fits) (k : Nat) :
    let st := Store.openOn cfg (f.base.flatMap Op.bytes ++ (ops.flatMap Op.bytes).take k)
    ∃ j, LongestWithin Op.bytes ops k j
      ∧ st.map.contents = after (f.before ++ ops.take j)
      ∧ CachesInBudget st.map
      ∧ (st.recoveryDiscardedTransaction = false →
        st.log.file = (f.base ++ ops.take j).flatMap Op.bytes) := by
  have hbase := Meaning.run_ops h.fitsBase (ShardedMap.init cfg.toMapConfig)
  obtain ⟨bs, j, txn, hrec, hfile, ⟨hbs, hle, hmax⟩, ⟨hj, hpre, hjmax⟩, hwhole⟩ :=
    recover_cut hfits (payloads_le h.fitsBase) hbase List.prefix_rfl k
  rw [← frames_flatMap, ← frames_flatMap] at hrec hfile
  have hcontents : (Meaning.applyOps f.base (ShardedMap.init cfg.toMapConfig)).contents
      = after f.before := by
    rw [Meaning.applyOps_contents hoff, ShardedMap.contents_init]
    exact h.contents
  dsimp only
  refine ⟨j, longestWithin_ops hj hle hmax hpre hjmax, ?_, ?_, fun hclosed => ?_⟩
  · rw [openOn_map hlog, hrec, after_append, ← hcontents]
    exact Meaning.applyOps_contents hoff _ _
  · rw [openOn_map hlog, hrec]
    exact (cachesInBudget_init.applyOps _).applyOps _
  · rw [openOn_discarded hlog, hrec] at hclosed
    have hnone : txn = none := Option.isSome_eq_false_iff.mp hclosed |> Option.isNone_iff_eq_none.mp
    rw [openOn_file hlog, hfile, hwhole hnone, ← frames_flatMap, List.flatMap_append]

end File

/-! ## Runs -/

/-- What a compaction is about to put in place, and has put there. -/
def Compaction.Matches (path : DiskFile) (snapshot : List (Bytes × Bytes)) : Compaction → Prop
  | .idle => True
  | .rewriting entries r =>
      entries.Perm snapshot ∧ r.Atomic path.bytes entries ∧ r.stage ≠ .returned
  | .renamed r => r.path = path.bytes ∧ r.result.ok = true ∧ path.since = []
      ∧ path.synced = path.bytes.length
  | .returned r => r.result.ok = true → r.path = path.bytes

/-- What is true of a store and its disk at all times. -/
structure Inv (cfg : StoreConfig) (s : State cfg) : Prop where
  path : FileOfOps s.path
  older : ∀ f ∈ s.older, FileOfOps f
  fits : ∀ op ∈ s.path.history, op.Fits
  fitsFlight : ∀ op ∈ s.inFlight, op.Fits
  /-- Nobody writes while the log is compacted. -/
  exclusive : s.compaction ≠ .idle → s.inFlight = none
  compaction : s.compaction.Matches s.path s.store.map.snapshot
  opened : s.replaced = false → s.store.log.file = s.path.bytes
  budget : CachesInBudget s.store.map
  memory : s.store.map.contents = after s.path.history
  present : s.path.absent = false
  nothing : ∀ f ∈ s.older, f.absent = true → f = .nothing
  /-- An older file has nothing that the path does not stand for. -/
  order : ∀ f ∈ s.older, f.history <+: s.path.history
  acked : s.acked <+: s.path.history
  /-- What was promised is on the disk under whatever name is found there. -/
  promised : ∀ f ∈ s.path :: s.older, s.promised <+: f.safe

section Steps

variable {cfg : StoreConfig} {s s' : State cfg}

theorem fileOfOps_nil (absent : Bool) : FileOfOps { absent := absent } :=
  ⟨by simp, by simp, rfl, rfl, Nat.le_refl _, Nat.le_refl _⟩

/-- What was there in front of a log that was just created is nothing. -/
theorem mem_start {created : Bool} {f : DiskFile} (hf : f ∈ (start cfg created).older) :
    f = .nothing := by
  cases created with
  | false => exact absurd hf List.not_mem_nil
  | true => exact List.mem_singleton.mp hf

theorem inv_start (hlog : cfg.logEnabled = true) (created : Bool) :
    Inv cfg (start cfg created) := by
  obtain ⟨hmap, hfile⟩ := openOn_nil hlog
  refine ⟨fileOfOps_nil false, fun f hf => ?_, by simp [start, DiskFile.history], by simp [start],
    fun h => absurd rfl h, trivial, fun _ => hfile, ?_, ?_, rfl, fun f hf _ => mem_start hf,
    fun f hf => ?_, List.nil_prefix, fun f _ => List.nil_prefix⟩
  · rw [mem_start hf]
    exact fileOfOps_nil true
  · show CachesInBudget (Store.openOn cfg []).map
    rw [hmap]
    exact cachesInBudget_init
  · show (Store.openOn cfg []).map.contents = _
    rw [hmap, ShardedMap.contents_init]
    rfl
  · rw [mem_start hf]
    exact List.nil_prefix

/-- Once the path is on the disk with all of its bytes, all of its operations are promised. -/
theorem Inv.settle (h : Inv cfg s) (hsynced : s.path.synced = s.path.bytes.length) :
    Inv cfg s.settle := by
  unfold State.settle
  split
  · rename_i hnil
    refine { h with promised := fun f hf => ?_ }
    rw [hnil] at hf
    cases List.mem_singleton.mp hf
    exact (h.path.safe_of_synced hsynced).symm ▸ List.prefix_rfl
  · exact h

/-- What was on the disk of a file is still there when more is appended to it. -/
theorem safe_append {f g : DiskFile} (hbase : g.base = f.base) (hbefore : g.before = f.before)
    (hsince : f.since <+: g.since) (hsynced : f.synced ≤ g.synced) : f.safe <+: g.safe := by
  unfold DiskFile.safe DiskFile.baseBytes
  rw [hbase, hbefore]
  exact (List.prefix_append_right_inj _).mpr
    (take_fitting_front hsince (Nat.sub_le_sub_right hsynced _))

/-- A call that was in flight has returned. -/
theorem Inv.finish (hlog : cfg.logEnabled = true) (hoff : cfg.maxMemoryBytes = 0) (h : Inv cfg s)
    {op : Op} (hop : s.inFlight = some op) {path : DiskFile}
    (hpath : path = { s.path with
      bytes := (s.store.perform op {}).1.log.file, since := s.path.since ++ [op] }) {n : Nat}
    (hn : s.path.synced ≤ n) (hle : n ≤ path.bytes.length) :
    Inv cfg
      { s with
        store := (s.store.perform op {}).1
        path := { path with synced := n }
        inFlight := none
        acked := path.history } := by
  have hidle : s.compaction = .idle := by
    by_contra hne
    rw [h.exclusive hne] at hop
    exact absurd hop (by simp)
  have hopened := h.opened (by rw [State.replaced, hidle])
  obtain ⟨-, hfile, -, hmap⟩ := perform_ok hlog s.store op
  have hfit := h.fitsFlight op hop
  have hhistory : path.history = s.path.history ++ [op] := by
    rw [hpath]
    exact (List.append_assoc ..).symm
  have hbytes : path.bytes = (s.path.base ++ (s.path.since ++ [op])).flatMap Op.bytes := by
    rw [hpath]
    dsimp only
    rw [hfile, hopened, h.path.bytes]
    simp only [List.flatMap_append, List.flatMap_singleton, List.append_assoc]
  have hrecorded : FileOfOps { path with synced := n } := by
    refine ⟨?_, ?_, ?_, ?_, ?_, hle⟩
    · rw [hpath]
      exact h.path.fitsBase
    · rw [hpath]
      exact Op.fits_concat h.path.fitsSince hfit
    · rw [hpath] at hbytes ⊢
      exact hbytes
    · rw [hpath]
      exact h.path.contents
    · rw [hpath]
      exact h.path.synced.trans hn
  have hsafe : s.path.safe <+: DiskFile.safe { path with synced := n } := by
    rw [hpath]
    exact safe_append rfl rfl (List.prefix_append _ _) hn
  refine
    { path := hrecorded, older := h.older, fits := ?_, fitsFlight := by simp
      exclusive := fun _ => rfl, compaction := ?_, opened := ?_, budget := ?_, memory := ?_
      present := ?_, nothing := h.nothing, order := ?_, acked := List.prefix_rfl
      promised := ?_ }
  · show ∀ o ∈ path.history, o.Fits
    rw [hhistory]
    exact Op.fits_concat h.fits hfit
  · show s.compaction.Matches _ _
    rw [hidle]
    trivial
  · intro _
    rw [hpath]
  · show CachesInBudget (s.store.perform op {}).1.map
    rw [hmap]
    exact h.budget.applyTo op
  · show (s.store.perform op {}).1.map.contents = after path.history
    rw [hmap, applyTo_contents hoff, h.memory, hhistory, after_append, List.flatMap_singleton]
  · rw [hpath]
    exact h.present
  · intro f hf
    show f.history <+: path.history
    rw [hhistory]
    exact (h.order f hf).trans (List.prefix_append _ _)
  · intro f hf
    rcases List.mem_cons.mp hf with rfl | hf
    · exact (h.promised _ (List.mem_cons_self ..)).trans hsafe
    · exact h.promised f (List.mem_cons_of_mem _ hf)

/-- What memory has was written by some operation, and so fits into a log. -/
theorem Inv.fits_entries (h : Inv cfg s) {entries : List (Bytes × Bytes)}
    (hentries : entries.Perm s.store.map.snapshot) : ∀ op ∈ setOps entries, op.Fits := by
  intro op hop
  obtain ⟨⟨key, value⟩, he, rfl⟩ := List.mem_map.mp hop
  obtain ⟨cs, hholds, _⟩ := h.budget
  have hval := (hholds.mem_snapshot key value).mp (hentries.mem_iff.mp he)
  rw [h.memory] at hval
  obtain ⟨op', hop', hu⟩ := List.mem_flatMap.mp (mem_of_runUpdates hval)
  exact fits_set_of_update (h.fits op' hop') hu

/-- The new log has been given the path. -/
theorem Inv.rename (h : Inv cfg s) {entries : List (Bytes × Bytes)}
    (hentries : entries.Perm s.store.map.snapshot) (hflight : s.inFlight = none)
    {r : Compactor.Rewriting} (hr : r.path = Compactor.rewrite entries) (hok : r.result.ok = true) :
    Inv cfg
      { s with
        compaction := .renamed r
        path :=
          { bytes := r.path, synced := r.path.length, base := setOps entries
            before := s.path.history }
        older := s.path :: s.older } := by
  have hbytes : r.path = (setOps entries ++ []).flatMap Op.bytes := by
    rw [List.append_nil, bytes_setOps, hr]
  have hcontents : after (setOps entries) = after s.path.history := by
    rw [after, updates_setOps, runUpdates_snapshot h.budget hentries, h.memory]
  have hrecorded : FileOfOps
      { bytes := r.path, synced := r.path.length, base := setOps entries
        before := s.path.history } := by
    refine ⟨h.fits_entries hentries, by simp, hbytes, hcontents, ?_, Nat.le_refl _⟩
    show ((setOps entries).flatMap Op.bytes).length ≤ r.path.length
    rw [hbytes, List.append_nil]
  have hhistory : DiskFile.history
      { bytes := r.path, synced := r.path.length, base := setOps entries
        before := s.path.history } = s.path.history := List.append_nil _
  have hpromised := h.promised _ (List.mem_cons_self ..)
  refine
    { path := hrecorded, older := ?_, fits := ?_, fitsFlight := h.fitsFlight
      exclusive := fun _ => hflight, compaction := ⟨rfl, hok, rfl, rfl⟩, opened := ?_
      budget := h.budget, memory := ?_, present := rfl, nothing := ?_, order := ?_, acked := ?_
      promised := ?_ }
  · intro f hf
    rcases List.mem_cons.mp hf with rfl | hf
    · exact h.path
    · exact h.older f hf
  · rw [hhistory]
    exact h.fits
  · intro hreplaced
    exact absurd hreplaced (by simp [State.replaced])
  · rw [hhistory]
    exact h.memory
  · intro f hf habsent
    rcases List.mem_cons.mp hf with rfl | hf
    · exact absurd (h.present.symm.trans habsent) (by simp)
    · exact h.nothing f hf habsent
  · intro f hf
    rw [hhistory]
    rcases List.mem_cons.mp hf with rfl | hf
    · exact List.prefix_rfl
    · exact h.order f hf
  · rw [hhistory]
    exact h.acked
  · intro f hf
    rcases List.mem_cons.mp hf with rfl | hf
    · rw [hrecorded.safe_of_synced rfl, hhistory]
      exact hpromised.trans (safe_front _)
    · exact h.promised f hf

/-- A step that the disk does not notice. -/
theorem Inv.compacting (h : Inv cfg s) {c : Compaction} (hexclusive : c ≠ .idle → s.inFlight = none)
    (hmatches : c.Matches s.path s.store.map.snapshot)
    (hreplaced : State.replaced { s with compaction := c } = false → s.replaced = false) :
    Inv cfg { s with compaction := c } :=
  { h with
    exclusive := hexclusive
    compaction := hmatches
    opened := fun hr => h.opened (hreplaced hr) }

theorem Inv.answer (h : Inv cfg s) {answer : Compactor.Answer}
    (hs : step s (.answer answer) = some s') : Inv cfg s' := by
  rw [step] at hs
  split at hs
  · rename_i entries r hc
    have hflight := h.exclusive (by rw [hc]; simp)
    obtain ⟨hentries, hatomic, -⟩ :
        Compaction.Matches s.path s.store.map.snapshot (.rewriting entries r) := hc ▸ h.compaction
    split at hs
    · exact absurd hs (by simp)
    · rename_i r' hr
      have hatomic' := Compactor.atomic_step hatomic hr
      have hopen : s.replaced = false := by rw [State.replaced, hc]
      split at hs
      · split at hs
        · rename_i hok
          cases hs
          have hpath := hatomic'.path
          rw [if_pos hok] at hpath
          exact h.rename hentries hflight hpath hok
        · rename_i hok
          cases hs
          exact h.compacting (fun _ => hflight) (fun hok' => absurd hok' hok) fun _ => hopen
      · rename_i hstage
        cases hs
        exact h.compacting (fun _ => hflight) ⟨hentries, hatomic', hstage⟩ fun _ => hopen
  · exact absurd hs (by simp)

theorem Inv.syncDirectory (h : Inv cfg s) {ok : Bool} (hs : step s (.syncDirectory ok) = some s') :
    Inv cfg s' := by
  rw [step] at hs
  split at hs
  · rename_i r hc
    have hflight := h.exclusive (by rw [hc]; simp)
    obtain ⟨hpath, hok, -, hsynced⟩ : Compaction.Matches s.path s.store.map.snapshot (.renamed r) :=
      hc ▸ h.compaction
    have hreturned : Inv cfg { s with compaction := .returned r } :=
      h.compacting (fun _ => hflight) (fun _ => hpath) fun hr => by
        rw [State.replaced] at hr
        exact absurd hr (by simp [hok])
    dsimp only at hs
    split at hs
    · cases hs
      -- no other file can be found at the path any more
      refine Inv.settle (s := { s with compaction := .returned r, older := [] }) ?_ hsynced
      exact
        { hreturned with
          older := by simp
          nothing := by simp
          order := by simp
          promised := fun f hf => h.promised f (by
            cases List.mem_singleton.mp hf
            exact List.mem_cons_self ..) }
    · cases hs
      exact hreturned
  · exact absurd hs (by simp)

theorem Inv.reopen (hlog : cfg.logEnabled = true) (h : Inv cfg s) (hs : step s .reopen = some s') :
    Inv cfg s' := by
  rw [step] at hs
  split at hs
  · rename_i r hc
    have hpath : r.result.ok = true → r.path = s.path.bytes :=
      (hc ▸ h.compaction : Compaction.Matches s.path s.store.map.snapshot (.returned r))
    have hopened := h.opened
    rw [State.replaced, hc] at hopened
    cases hs
    rw [Store.compact, if_pos hlog]
    dsimp only
    split
    · rename_i hok
      exact
        { h with
          exclusive := fun hne => absurd rfl hne
          compaction := trivial
          opened := fun _ => hpath hok }
    · rename_i hok
      exact
        { h with
          exclusive := fun hne => absurd rfl hne
          compaction := trivial
          opened := fun _ => hopened (by simpa using hok) }
  · exact absurd hs (by simp)

theorem Inv.syncPath (h : Inv cfg s) : Inv cfg { s with path := s.path.sync } := by
  have hcompaction : s.compaction.Matches s.path.sync s.store.map.snapshot := by
    have hmatches := h.compaction
    cases hc : s.compaction with
    | idle => trivial
    | rewriting entries r =>
        rw [hc] at hmatches
        exact hmatches
    | renamed r =>
        rw [hc] at hmatches
        exact ⟨hmatches.1, hmatches.2.1, hmatches.2.2.1, rfl⟩
    | returned r =>
        rw [hc] at hmatches
        exact hmatches
  refine { h with path := h.path.sync, compaction := hcompaction, promised := fun f hf => ?_ }
  rcases List.mem_cons.mp hf with rfl | hf
  · show s.promised <+: s.path.sync.safe
    rw [h.path.safe_sync]
    exact (h.promised _ (List.mem_cons_self ..)).trans (safe_front _)
  · exact h.promised f (List.mem_cons_of_mem _ hf)

/-- The background thread may still sync the file that has just been replaced. -/
theorem Inv.syncReplaced (h : Inv cfg s) :
    Inv cfg { s with older := s.older.modifyHead DiskFile.sync } := by
  cases hold : s.older with
  | nil =>
      rw [List.modifyHead_nil, ← hold]
      exact h
  | cons f older =>
      rw [List.modifyHead_cons]
      have hf : f ∈ s.older := hold ▸ List.mem_cons_self ..
      have hothers : ∀ g ∈ older, g ∈ s.older := fun g hg => hold ▸ List.mem_cons_of_mem _ hg
      refine
        { h with
          older := fun g hg => ?_
          nothing := fun g hg habsent => ?_
          order := fun g hg => ?_
          promised := fun g hg => ?_ }
      · rcases List.mem_cons.mp hg with rfl | hg
        · exact (h.older f hf).sync
        · exact h.older g (hothers g hg)
      · rcases List.mem_cons.mp hg with rfl | hg
        · rw [h.nothing f hf habsent]
          rfl
        · exact h.nothing g (hothers g hg) habsent
      · rcases List.mem_cons.mp hg with rfl | hg
        · exact h.order f hf
        · exact h.order g (hothers g hg)
      · rcases List.mem_cons.mp hg with rfl | hg
        · exact h.promised _ (List.mem_cons_self ..)
        · rcases List.mem_cons.mp hg with rfl | hg
          · rw [(h.older f hf).safe_sync]
            exact (h.promised f (List.mem_cons_of_mem _ hf)).trans (safe_front _)
          · exact h.promised g (List.mem_cons_of_mem _ (hothers g hg))

/-! ## Starting again -/

/-- What is left of a file when a store has been opened on it. -/
structure RestartsWith (f : DiskFile) (ops : List Op) (k n : Nat) (st : Store cfg) : Prop where
  since : ∃ j, LongestWithin Op.bytes ops k j ∧ (recovered f ops st n).since = ops.take j
  recorded : FileOfOps (recovered f ops st n)
  fits : ∀ op ∈ (recovered f ops st n).since, op.Fits
  memory : st.map.contents = after (recovered f ops st n).history
  budget : CachesInBudget st.map

theorem FileOfOps.restart {f : DiskFile} (h : FileOfOps f) (hlog : cfg.logEnabled = true)
    (hoff : cfg.maxMemoryBytes = 0) {ops : List Op} (hfits : ∀ op ∈ ops, op.Fits) {k n : Nat}
    {file : Bytes} (hfile : file = f.base.flatMap Op.bytes ++ (ops.flatMap Op.bytes).take k)
    (hwhole : Whole cfg file)
    (hn : f.baseBytes ≤ n) : RestartsWith f ops k n (Store.openOn cfg file) := by
  obtain ⟨j, hj, hcontents, hkept, hbytes⟩ := h.reopen hlog hoff hfits k
  rw [← hfile] at hcontents hkept hbytes
  have hbytes := hbytes hwhole
  have hlength : (Store.openOn cfg file).log.file.length
      = f.baseBytes + ((ops.take j).flatMap Op.bytes).length := by
    rw [hbytes, List.flatMap_append, List.length_append]
    rfl
  -- as many operations as the log has room for are those that were recovered
  have hfitting : fitting ops ((Store.openOn cfg file).log.file.length - f.baseBytes) = j := by
    refine LongestWithin.unique (longestWithin_fitting _ _) ⟨hj.1, by omega, fun i hi hle => ?_⟩
    exact hj.2.2 i hi (le_trans hle (by have := hj.2.1; omega))
  have hsince : (recovered f ops (Store.openOn cfg file) n).since = ops.take j := by
    rw [recovered, hfitting]
  have hfitsSince : ∀ op ∈ (recovered f ops (Store.openOn cfg file) n).since, op.Fits := by
    rw [hsince]
    exact fun op hop => hfits op (List.mem_of_mem_take hop)
  refine ⟨⟨j, hj, hsince⟩, ⟨h.fitsBase, hfitsSince, ?_, h.contents, ?_, ?_⟩, hfitsSince, ?_, hkept⟩
  · rw [hsince]
    exact hbytes
  · show f.baseBytes ≤ if _ then _ else _
    split
    · omega
    · exact Nat.le_min.mpr ⟨hn, by omega⟩
  · show (if _ then _ else _) ≤ (Store.openOn cfg file).log.file.length
    split
    · exact Nat.le_refl _
    · exact Nat.min_le_right _ _
  · rw [hcontents, DiskFile.history, hsince]
    rfl

/-- What a process that is killed leaves at the path. -/
theorem Inv.killed (h : Inv cfg s) (torn : Nat) :
    s.path.bytes ++ s.torn torn = s.path.base.flatMap Op.bytes
      ++ (s.logging.flatMap Op.bytes).take ((s.path.since.flatMap Op.bytes).length + torn) := by
  rw [h.path.bytes, State.torn, State.logging, List.flatMap_append, List.flatMap_append,
    List.append_assoc, List.take_length_add_append]
  cases s.inFlight with
  | none => simp
  | some op => simp

theorem Inv.fits_logging (h : Inv cfg s) : ∀ op ∈ s.logging, op.Fits := by
  refine List.forall_mem_append.mpr ⟨h.path.fitsSince, fun op hop => h.fitsFlight op ?_⟩
  exact Option.mem_toList.mp hop

/-- The file that a power cut leaves is a front part of one that was written. -/
structure Cut (s : State cfg) (f : DiskFile) (ops : List Op) (file : Bytes) (k : Nat) : Prop where
  mem : f ∈ s.path :: s.older
  recorded : FileOfOps f
  since : f.since <+: ops
  fits : ∀ op ∈ ops, op.Fits
  bytes : file = f.base.flatMap Op.bytes ++ (ops.flatMap Op.bytes).take k
  /-- What was on the disk is left. -/
  synced : f.synced - f.baseBytes ≤ k
  history : f.before ++ ops <+: s.path.history ++ s.inFlight.toList

theorem Inv.cut (h : Inv cfg s) {older : Option Nat} {torn keep : Nat} {f : DiskFile}
    {ops : List Op} {file : Bytes} (hleft : s.left older torn keep = some (f, ops, file)) :
    ∃ k, Cut s f ops file k := by
  cases older with
  | none =>
      simp only [State.left] at hleft
      split at hleft
      · rename_i hkeep
        cases hleft
        refine ⟨min (keep - s.path.baseBytes) ((s.path.since.flatMap Op.bytes).length + torn), ?_⟩
        refine ⟨List.mem_cons_self .., h.path, List.prefix_append _ _, h.fits_logging, ?_, ?_, ?_⟩
        · rw [h.killed, List.take_append, List.take_of_length_le, List.take_take]
          · rfl
          · exact h.path.synced.trans hkeep
        · have := h.path.synced_le
          have := h.path.length_bytes
          omega
        · have hsame : s.path.before ++ s.logging = s.path.history ++ s.inFlight.toList :=
            (List.append_assoc ..).symm
          exact hsame ▸ List.prefix_rfl
      · exact absurd hleft (by simp)
  | some i =>
      simp only [State.left] at hleft
      split at hleft
      · exact absurd hleft (by simp)
      · rename_i g hg
        have hmem : g ∈ s.older := List.mem_of_getElem? hg
        have hrecorded := h.older g hmem
        split at hleft
        · rename_i hkeep
          cases hleft
          refine ⟨keep - f.baseBytes, ?_⟩
          refine ⟨List.mem_cons_of_mem _ hmem, hrecorded, List.prefix_rfl, hrecorded.fitsSince, ?_,
            Nat.sub_le_sub_right hkeep _, (h.order f hmem).trans (List.prefix_append _ _)⟩
          rw [hrecorded.bytes, List.flatMap_append, List.take_append, List.take_of_length_le]
          · rfl
          · exact hrecorded.synced.trans hkeep
        · exact absurd hleft (by simp)

/-- What was safe in the file is among the operations that are left. -/
theorem Cut.safe {f : DiskFile} {ops : List Op} {file : Bytes} {k j : Nat} (h : Cut s f ops file k)
    (hj : LongestWithin Op.bytes ops k j) : f.safe <+: f.before ++ ops.take j := by
  rw [LongestWithin.unique hj (longestWithin_fitting ops k), DiskFile.safe]
  exact (List.prefix_append_right_inj _).mpr (take_fitting_front h.since h.synced)

/-- A process that was killed loses nothing that is in its log. -/
theorem RestartsWith.since_front {st : Store cfg} {f : DiskFile} {ops : List Op} {k n : Nat}
    (h : RestartsWith f ops k n st) (hsince : f.since <+: ops)
    (hk : (f.since.flatMap Op.bytes).length ≤ k) : f.since <+: (recovered f ops st n).since := by
  obtain ⟨j, hj, hrec⟩ := h.since
  obtain ⟨more, rfl⟩ := hsince
  have hle : f.since.length ≤ j :=
    hj.2.2 _ (by rw [List.length_append]; omega) (by rw [List.take_left]; exact hk)
  rw [hrec]
  calc f.since = (f.since ++ more).take f.since.length := List.take_left.symm
    _ <+: (f.since ++ more).take j := List.take_prefix_take_left hle

theorem Inv.kill (hlog : cfg.logEnabled = true) (hoff : cfg.maxMemoryBytes = 0) (h : Inv cfg s)
    {torn : Nat} (hwhole : Recoverable s (.kill torn)) (hs : step s (.kill torn) = some s') :
    Inv cfg s' := by
  have hrestart := h.path.restart hlog hoff h.fits_logging (h.killed torn) hwhole h.path.synced
  have hfront := hrestart.since_front (List.prefix_append _ _) (Nat.le_add_right _ _)
  cases hs
  have hhistory : s.path.history <+: (recovered s.path s.logging
      (Store.openOn cfg (s.path.bytes ++ s.torn torn)) s.path.synced).history :=
    (List.prefix_append_right_inj _).mpr hfront
  have hsafe : s.path.safe <+: (recovered s.path s.logging
      (Store.openOn cfg (s.path.bytes ++ s.torn torn)) s.path.synced).safe := by
    refine safe_append rfl rfl hfront ?_
    -- the log is no shorter than it was
    have hlen := hrestart.recorded.length_bytes
    obtain ⟨more, hmore⟩ := hfront
    rw [← hmore, List.flatMap_append, List.length_append] at hlen
    have hle := h.path.synced_le
    rw [h.path.length_bytes] at hle
    have hle' : s.path.synced
      ≤ (Store.openOn cfg (s.path.bytes ++ s.torn torn)).log.file.length := by
      refine le_trans hle (le_trans ?_ hlen.ge)
      rw [← Nat.add_assoc]
      exact Nat.le_add_right _ _
    show s.path.synced ≤ if _ then _ else _
    split
    · exact hle'
    · exact Nat.le_min.mpr ⟨Nat.le_refl _, hle'⟩
  refine
    { path := hrestart.recorded, older := h.older, fits := ?_, fitsFlight := by simp
      exclusive := fun hne => absurd rfl hne, compaction := trivial, opened := fun _ => rfl
      budget := hrestart.budget, memory := hrestart.memory, present := rfl, nothing := h.nothing
      order := fun f hf => (h.order f hf).trans hhistory, acked := h.acked.trans hhistory
      promised := fun f hf => ?_ }
  · refine List.forall_mem_append.mpr ⟨fun op hop => h.fits op (List.mem_append_left _ hop), ?_⟩
    exact hrestart.fits
  · rcases List.mem_cons.mp hf with rfl | hf
    · exact (h.promised _ (List.mem_cons_self ..)).trans hsafe
    · exact h.promised f (List.mem_cons_of_mem _ hf)

/-- Where there was no log, there are no operations. -/
theorem Inv.left_absent (h : Inv cfg s) {older : Option Nat} {torn keep : Nat} {f : DiskFile}
    {ops : List Op} {file : Bytes} (hleft : s.left older torn keep = some (f, ops, file))
    (habsent : f.absent = true) : f = .nothing ∧ ops = [] := by
  cases older with
  | none =>
      simp only [State.left] at hleft
      split at hleft
      · cases hleft
        exact absurd (h.present.symm.trans habsent) (by simp)
      · exact absurd hleft (by simp)
  | some i =>
      simp only [State.left] at hleft
      split at hleft
      · exact absurd hleft (by simp)
      · rename_i g hg
        split at hleft
        · cases hleft
          have hnothing := h.nothing f (List.mem_of_getElem? hg) habsent
          exact ⟨hnothing, by rw [hnothing]; rfl⟩
        · exact absurd hleft (by simp)

theorem Inv.powerCut (hlog : cfg.logEnabled = true) (hoff : cfg.maxMemoryBytes = 0) (h : Inv cfg s)
    {older : Option Nat} {torn keep : Nat} (hwhole : Recoverable s (.powerCut older torn keep))
    (hs : step s (.powerCut older torn keep) = some s') : Inv cfg s' := by
  rw [step] at hs
  split at hs
  · exact absurd hs (by simp)
  · rename_i f ops file hleft
    obtain ⟨k, hcut⟩ := h.cut hleft
    have hwhole : Whole cfg file := hwhole (f, ops, file) hleft
    have hrestart (n : Nat) (hn : f.baseBytes ≤ n) :=
      hcut.recorded.restart hlog hoff hcut.fits hcut.bytes hwhole hn
    cases hs
    -- the operations that a compaction began with are in the log whatever happens
    have hbase : f.baseBytes ≤ (Store.openOn cfg file).log.file.length := by
      have hlen := (hrestart _ (Nat.le_refl _)).recorded.length_bytes
      exact le_trans (Nat.le_add_right _ _) hlen.ge
    have hr := hrestart _ hbase
    have hsynced : (recovered f ops (Store.openOn cfg file)
        (Store.openOn cfg file).log.file.length).synced
          = (Store.openOn cfg file).log.file.length := by
      show (if _ then _ else _) = _
      rw [Nat.min_self]
      exact ite_self _
    -- what the new log may be replaced by is what it was made from, if that was nothing
    have holder : ∀ g ∈ (if f.absent then [f] else []), g = .nothing ∧ f = .nothing ∧ ops = [] := by
      intro g hg
      split at hg
      · rename_i habsent
        obtain ⟨hf, hops⟩ := h.left_absent hleft habsent
        exact ⟨(List.mem_singleton.mp hg).trans hf, hf, hops⟩
      · exact absurd hg List.not_mem_nil
    refine
      { path := hr.recorded, older := fun g hg => ?_, fits := ?_, fitsFlight := by simp
        exclusive := fun hne => absurd rfl hne, compaction := trivial, opened := fun _ => rfl
        budget := hr.budget, memory := hr.memory, present := rfl
        nothing := fun g hg _ => (holder g hg).1, order := fun g hg => ?_
        acked := List.prefix_rfl, promised := fun g hg => ?_ }
    · rw [(holder g hg).1]
      exact fileOfOps_nil true
    · refine List.forall_mem_append.mpr ⟨fun op hop => ?_, hr.fits⟩
      rcases List.mem_cons.mp hcut.mem with rfl | hf
      · exact h.fits op (List.mem_append_left _ hop)
      · exact h.fits op ((h.order f hf).subset (List.mem_append_left _ hop))
    · rw [(holder g hg).1]
      exact List.nil_prefix
    · rcases List.mem_cons.mp hg with rfl | hg
      · exact (hr.recorded.safe_of_synced hsynced).symm ▸ List.prefix_rfl
      · obtain ⟨-, hf, hops⟩ := holder g hg
        show (recovered f ops _ _).history <+: _
        rw [hf, hops, DiskFile.history, recovered, List.take_nil]
        exact List.nil_prefix

/-- **Every step keeps the store and its disk in order.** -/
theorem inv_step (hlog : cfg.logEnabled = true) (hoff : cfg.maxMemoryBytes = 0) (h : Inv cfg s)
    {a : Act} (hok : Recoverable s a) (hs : step s a = some s') : Inv cfg s' := by
  cases a with
  | call op =>
      rw [step] at hs
      split at hs
      · rename_i hcall
        cases hs
        exact
          { h with
            fitsFlight := by simpa using (show op.Fits from hok)
            exclusive := fun hne => absurd hcall.2.2 hne }
      · exact absurd hs (by simp)
  | finish =>
      rw [step] at hs
      split at hs
      · exact absurd hs (by simp)
      · rename_i op hop
        obtain ⟨-, hfile, -, -⟩ := perform_ok hlog s.store op
        have hgrown : s.path.synced ≤ (s.store.perform op {}).1.log.file.length := by
          have hidle : s.replaced = false := by
            by_contra hr
            have hne : s.compaction ≠ .idle := fun hc => hr (by rw [State.replaced, hc])
            rw [h.exclusive hne] at hop
            exact absurd hop (by simp)
          rw [hfile, h.opened hidle, List.length_append]
          exact Nat.le_add_right_of_le h.path.synced_le
        dsimp only at hs
        split at hs
        · cases hs
          exact (h.finish hlog hoff hop rfl hgrown (Nat.le_refl _)).settle rfl
        · cases hs
          exact h.finish hlog hoff hop rfl (Nat.le_refl _) hgrown
  | tick ok =>
      rw [step] at hs
      split at hs
      · split at hs
        · split at hs
          · cases hs
            exact h.syncReplaced
          · cases hs
            exact h.syncPath.settle rfl
        · cases hs
          exact h
      · exact absurd hs (by simp)
  | compact entries =>
      rw [step] at hs
      split at hs
      · rename_i hcall
        cases hs
        refine h.compacting (fun _ => hcall.2.1) ⟨hcall.2.2.2, ⟨rfl, rfl, fun _ => rfl⟩, by simp⟩ ?_
        intro _
        rw [State.replaced, hcall.2.2.1]
      · exact absurd hs (by simp)
  | answer answer => exact h.answer hs
  | syncDirectory ok => exact h.syncDirectory hs
  | reopen => exact h.reopen hlog hs
  | close ok =>
      rw [step] at hs
      split at hs
      · dsimp only at hs
        split at hs
        · cases hs
          exact Inv.settle (s := { s with closed := true, path := s.path.sync })
            { h.syncPath with } rfl
        · cases hs
          exact { h with }
      · exact absurd hs (by simp)
  | kill torn => exact h.kill hlog hoff hok hs
  | powerCut older torn keep => exact h.powerCut hlog hoff hok hs

theorem inv_reachable (hlog : cfg.logEnabled = true) (hoff : cfg.maxMemoryBytes = 0)
    (h : (system cfg).ReachableBy Recoverable s) : Inv cfg s := by
  refine h.invariant (I := Inv cfg) ?_ fun _ _ _ hi hok hs => inv_step hlog hoff hi hok hs
  rintro s ⟨created, rfl⟩
  exact inv_start hlog created

/-! ## With a sync behind every append -/

/-- What callers were told is promised, if the name of the log is on the disk. -/
def AckedPromised (s : State cfg) : Prop := s.older = [] → s.acked <+: s.promised

theorem ackedPromised_settle (hacked : s.acked <+: s.path.history) : AckedPromised s.settle := by
  unfold State.settle
  split
  · exact fun _ => hacked
  · rename_i hne
    exact fun hnil => absurd hnil hne

theorem ackedPromised_step (hmode : cfg.fsyncMode = .always) (hi : Inv cfg s) (h : AckedPromised s)
    {a : Act} (hs : step s a = some s') : AckedPromised s' := by
  cases a with
  | call op =>
      rw [step] at hs
      split at hs
      · cases hs
        exact h
      · exact absurd hs (by simp)
  | finish =>
      rw [step] at hs
      split at hs
      · exact absurd hs (by simp)
      · dsimp only at hs
        rw [if_pos hmode] at hs
        cases hs
        exact ackedPromised_settle List.prefix_rfl
  | tick ok =>
      -- there is no background thread in this mode
      rw [step, if_neg (by rw [hmode]; simp)] at hs
      exact absurd hs (by simp)
  | compact entries =>
      rw [step] at hs
      split at hs
      · cases hs
        exact h
      · exact absurd hs (by simp)
  | answer answer =>
      rw [step] at hs
      split at hs
      · split at hs
        · exact absurd hs (by simp)
        · split at hs
          · split at hs
            · cases hs
              exact fun hnil => absurd hnil (by simp)
            · cases hs
              exact h
          · cases hs
            exact h
      · exact absurd hs (by simp)
  | syncDirectory ok =>
      rw [step] at hs
      split at hs
      · dsimp only at hs
        split at hs
        · cases hs
          exact ackedPromised_settle hi.acked
        · cases hs
          exact h
      · exact absurd hs (by simp)
  | reopen =>
      rw [step] at hs
      split at hs
      · cases hs
        exact h
      · exact absurd hs (by simp)
  | close ok =>
      rw [step] at hs
      split at hs
      · dsimp only at hs
        split at hs
        · cases hs
          exact ackedPromised_settle hi.acked
        · cases hs
          exact h
      · exact absurd hs (by simp)
  | kill torn =>
      cases hs
      exact h
  | powerCut older torn keep =>
      rw [step] at hs
      split at hs
      · exact absurd hs (by simp)
      · cases hs
        exact fun _ => List.prefix_rfl

theorem ackedPromised_reachable (hlog : cfg.logEnabled = true) (hoff : cfg.maxMemoryBytes = 0)
    (hmode : cfg.fsyncMode = .always) (h : (system cfg).ReachableBy Recoverable s) :
    AckedPromised s := by
  have hboth : Inv cfg s ∧ AckedPromised s := by
    refine h.invariant (I := fun s => Inv cfg s ∧ AckedPromised s) ?_ ?_
    · rintro s ⟨created, rfl⟩
      exact ⟨inv_start hlog created, fun _ => List.prefix_rfl⟩
    · rintro s a s' ⟨hi, ht⟩ hok hs
      exact ⟨inv_step hlog hoff hi hok hs, ackedPromised_step hmode hi ht hs⟩
  exact hboth.2

/-! ## What is found again -/

/-- What a cut leaves, whatever it is. -/
theorem Inv.found (hlog : cfg.logEnabled = true) (hoff : cfg.maxMemoryBytes = 0) (h : Inv cfg s)
    {older : Option Nat} {torn keep : Nat} {f : DiskFile} {ops : List Op} {file : Bytes}
    (hleft : s.left older torn keep = some (f, ops, file)) :
    ∃ done, (Store.openOn cfg file).map.contents = after done ∧ s.promised <+: done
      ∧ done <+: s.path.history ++ s.inFlight.toList := by
  obtain ⟨k, hcut⟩ := h.cut hleft
  obtain ⟨j, hj, hcontents, -⟩ := hcut.recorded.reopen hlog hoff hcut.fits k
  rw [← hcut.bytes] at hcontents
  refine ⟨_, hcontents, (h.promised f hcut.mem).trans (hcut.safe hj), ?_⟩
  exact ((List.prefix_append_right_inj _).mpr (List.take_prefix _ _)).trans hcut.history

end Steps

section Results

variable {cfg : StoreConfig} {s : State cfg}

/-- The store of the quick start with a sync once in a while. -/
def relaxed : StoreConfig := { standalone with fsyncMode := .interval }

/-- A write and a sync, a transaction, and the call during which the power goes. -/
def unsynced : List Act :=
  [.call (.set [97] [49]), .finish, .tick true,
    .call (.commitTransaction 1 [{ key := [98], value := [50] }, { erase := true, key := [97] }]),
    .finish, .call (.del [98])]

/-- A compaction whose sync of the directory fails, and a write that is acknowledged behind it. -/
def unnamed : List Act :=
  [.call (.set [97] [49]), .finish, .compact [([97], [49])], .answer .ok, .answer (.wrote 100),
    .answer .ok, .answer .ok, .syncDirectory false, .reopen, .call (.set [97] [50]), .finish]

-- a log that was just created has a sync behind its one record, and nothing is left of it
example : ∃ s, (system standalone).ReachableBy Recoverable s ∧ s.acked = [.set [97] [49]]
    ∧ s.path.synced = s.path.bytes.length
    ∧ s.left (some 0) 0 0 = some (.nothing, [], []) :=
  System.exists_reachableBy
    (show (system standalone).ReachableBy Recoverable _ from .init ⟨true, rfl⟩)
    [.call (.set [97] [49]), .finish] (by decide +kernel) (by decide +kernel)

end Results

end KvStore.PowerCut
