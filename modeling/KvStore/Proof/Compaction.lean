import KvStore.Proof.Lifetime
import Mathlib.Algebra.Order.BigOperators.Group.List

/-!
# What a compaction leaves behind

A compacted log is one record for every entry that memory has. Two things could go
wrong when it is read back. Something might be evicted on the way: but every shard
had room for all of its entries at once, so it has room for some of them, whatever
the order. And the log might have grown: but every entry is in memory because some
record of the old log put it there, and no two entries owe it to the same record.
-/

namespace KvStore

open Lib Wal Protocol

/-! ## Reading it back -/

section Replay

variable {cfg : MapConfig} {live cs : Caches cfg} {m : ShardedMap cfg}

/-- Every shard has some of the entries it has in `live`. -/
def Caches.Part (cs live : Caches cfg) : Prop :=
  ∀ i, Within (fun key => (cs i).lookup key) fun key => (live i).lookup key

theorem part_applyOne (hpart : cs.Part live) {key value : Bytes}
    (hlive : live.contents key = some value) :
    (cs.applyOne { key := key, value := value }).Part live := by
  intro i k v hk
  unfold Caches.applyOne at hk
  dsimp only at hk
  by_cases hi : i = cfg.shardFor key
  · subst hi
    rw [Function.update_self, if_neg (by simp)] at hk
    by_cases hkey : k = key
    · subst hkey
      rw [AList.lookup_insert] at hk
      rw [← hk]
      exact hlive
    · rw [AList.lookup_insert_ne hkey] at hk
      exact hpart _ k v hk
  · rw [Function.update_of_ne hi] at hk
    exact hpart i k v hk

/-- Where there is room for everything, an entry more evicts nothing. -/
theorem set_of_part (hm : m.Holds cs) (hbounded : live.Bounded) (hpart : cs.Part live)
    {key value : Bytes} (hlive : live.contents key = some value) :
    (m.set key value).Holds (cs.applyOne { key := key, value := value })
      ∧ (m.set key value).contents = Function.update m.contents key (some value)
      ∧ (m.set key value).evictions = m.evictions := by
  have hone := hm.applyOne { key := key, value := value }
  have hfits : Caches.InBudget cfg
      (cs.applyOne { key := key, value := value } (cfg.shardFor key)) :=
    (hbounded _).mono (part_applyOne hpart hlive _)
  obtain ⟨hevict, hcount⟩ := hone.evictIfNeeded (cfg.shardFor key)
  rw [Caches.evictIfNeeded, Caches.settle_of_inBudget hfits, Function.update_eq_self] at hevict
  rw [Caches.settle_of_inBudget hfits] at hcount
  refine ⟨hevict, ?_, Nat.add_right_cancel hcount⟩
  have hsame : (m.set key value).contents = (m.applyOne { key := key, value := value }).contents :=
    hevict.contents.trans hone.contents.symm
  rw [hsame, ShardedMap.contents_applyOne]
  rfl

/-- **Entries of one state, in any order, are read back without an eviction.** -/
theorem replay_entries (hbounded : live.Bounded) (entries : List (Bytes × Bytes))
    (hlive : ∀ entry ∈ entries, live.contents entry.1 = some entry.2) (hm : m.Holds cs)
    (hpart : cs.Part live) :
    (Meaning.applyOps (setOps entries) m).contents = runUpdates (puts entries) m.contents
      ∧ (Meaning.applyOps (setOps entries) m).evictions = m.evictions := by
  induction entries generalizing m cs with
  | nil => exact ⟨rfl, rfl⟩
  | cons entry entries ih =>
      have hentry := hlive entry (List.mem_cons_self ..)
      obtain ⟨hset, hcontents, hcount⟩ := set_of_part hm hbounded hpart hentry
      obtain ⟨h1, h2⟩ := ih (fun e he => hlive e (List.mem_cons_of_mem _ he)) hset
        (part_applyOne hpart hentry)
      refine ⟨?_, h2.trans hcount⟩
      rw [puts, List.map_cons, runUpdates_cons, ← hcontents]
      exact h1

end Replay

/-! ## Its length -/

/-- The bytes of the record that sets a key. -/
def recordBytes (key value : Bytes) : Nat := (frame (Command.set key value).serialize).length

theorem length_rewrite (entries : List (Bytes × Bytes)) :
    (Compactor.rewrite entries).length
      = (entries.map fun entry => recordBytes entry.1 entry.2).sum := by
  rw [Compactor.rewrite, List.length_flatMap]
  rfl

/-- The bytes of the records that what is set here would take. -/
def cost (us : List (Update Bytes Bytes)) : Nat :=
  (us.map fun u => u.2.elim 0 (recordBytes u.1)).sum

theorem cost_append (us vs : List (Update Bytes Bytes)) : cost (us ++ vs) = cost us + cost vs := by
  rw [cost, List.map_append, List.sum_append]
  rfl

section Cost

variable {cfg : MapConfig}

/-- What the transaction that is open would do. -/
def Meaning.pending (s : Meaning cfg) : List (Update Bytes Bytes) :=
  (s.txn.elim [] Prod.snd).map toUpdate

/-- The map is made of updates that, with those put aside, take no more than `n` bytes of log. -/
def PaidFor (s : Meaning cfg) (n : Nat) : Prop :=
  ∃ us, s.map.contents = runUpdates us (fun _ => none) ∧ cost us + cost s.pending ≤ n

/-- A command is paid for by the record it was read from. -/
theorem cost_command {payload : Bytes} {c : Command}
    (h : decode payload = some (.command c)) :
    cost [toUpdate c.toMutation] ≤ (frame payload).length := by
  cases c with
  | set key value =>
      rw [← serialize_decode h]
      exact Nat.le_refl _
  | del key => exact Nat.zero_le _

theorem paidFor_step (hoff : cfg.maxMemoryBytes = 0) {s r : Meaning cfg} {n : Nat}
    (h : PaidFor s n) {payload : Bytes} (hs : s.step payload = some r) :
    PaidFor r (n + (frame payload).length) := by
  obtain ⟨us, hcontents, hcost⟩ := h
  obtain ⟨record, hrecord, hs⟩ := Option.bind_eq_some_iff.mp hs
  cases record with
  | begin txnId =>
      rw [Meaning.stepRecord] at hs
      split at hs
      · cases hs
        refine ⟨us, hcontents, ?_⟩
        show cost us + 0 ≤ _
        omega
      · exact absurd hs (by simp)
  | commit txnId =>
      rw [Meaning.stepRecord] at hs
      split at hs
      · exact absurd hs (by simp)
      · rename_i openTxnId pending htxn
        split at hs
        · cases hs
          refine ⟨us ++ s.pending, ?_, ?_⟩
          · rw [ShardedMap.contents_applyAtomically hoff, hcontents, runUpdates_append,
              Meaning.pending, htxn]
            rfl
          · rw [cost_append]
            exact Nat.le_trans hcost (Nat.le_add_right _ _)
        · exact absurd hs (by simp)
  | command c =>
      have hpaid := cost_command hrecord
      rw [Meaning.stepRecord] at hs
      split at hs
      · rename_i htxn
        cases hs
        refine ⟨us ++ [toUpdate c.toMutation], ?_, ?_⟩
        · rw [runUpdates_append, ← hcontents]
          cases c with
          | set key value => exact ShardedMap.contents_set hoff s.map key value
          | del key => exact ShardedMap.contents_del s.map key
        · rw [cost_append]
          rw [Meaning.pending, htxn] at hcost
          simp only [Meaning.pending, Option.elim_none, List.map_nil] at hcost ⊢
          omega
      -- what is put aside is paid for already when it is carried out
      · rename_i txnId pending htxn
        cases hs
        refine ⟨us, hcontents, ?_⟩
        rw [Meaning.pending, htxn] at hcost
        simp only [Meaning.pending, Option.elim_some, List.map_append, List.map_singleton,
          cost_append] at hcost ⊢
        omega

/-- **What a log sets takes no more bytes than the log has.** -/
theorem paidFor_run (hoff : cfg.maxMemoryBytes = 0) {payloads : List Bytes} {r : Meaning cfg}
    (h : Meaning.run payloads (Meaning.init cfg) = some r) :
    PaidFor r (frames payloads).length := by
  induction payloads using List.reverseRecOn generalizing r with
  | nil =>
      cases h
      exact ⟨[], by rw [Meaning.init, ShardedMap.contents_init]; rfl, Nat.le_refl _⟩
  | append_singleton payloads payload ih =>
      rw [Meaning.run_append] at h
      obtain ⟨s, hs, hr⟩ := Option.bind_eq_some_iff.mp h
      rw [Meaning.run_cons] at hr
      obtain ⟨r', hstep, hr'⟩ := Option.bind_eq_some_iff.mp hr
      cases hr'
      rw [frames, List.flatMap_append, List.length_append, List.flatMap_singleton]
      exact paidFor_step hoff (ih hs) hstep

end Cost

namespace Lifetime

variable {cfg : StoreConfig} {s : State cfg}

/-- The live entries take no more bytes than the log they were read from or written to. -/
theorem length_rewrite_le {file : Bytes} {logged : ShardedMap cfg.unlimited.toMapConfig}
    (h : NothingStale file s logged) {entries : List (Bytes × Bytes)}
    (hentries : entries.Perm s.store.map.snapshot) :
    (Compactor.rewrite entries).length ≤ s.store.log.file.length := by
  obtain ⟨payloads, -, hrun, hfile, -⟩ := recover_spec cfg.unlimited s.store.log.file
  obtain ⟨us, hcontents, hcost⟩ := paidFor_run rfl hrun
  rw [h.reads.meaning] at hcontents
  rw [h.reads.kept] at hfile
  obtain ⟨cs, hholds, -⟩ := id h.budget
  have hnodup : (entries.map Prod.fst).Nodup :=
    (hentries.map Prod.fst).nodup_iff.mpr hholds.nodup_snapshot
  have hsum : (entries.map fun entry => recordBytes entry.1 entry.2).sum ≤ cost us := by
    refine sum_le_of_runUpdates recordBytes hnodup fun entry he => ?_
    rw [← hcontents]
    exact h.memory _ _ ((h.budget.mem_snapshot hentries _ _).mp he)
  rw [length_rewrite, hfile]
  exact hsum.trans ((Nat.le_add_right _ _).trans hcost)

/--
**A compaction changes nothing but the length of the log**, and that for the better.
While it runs the path names the old log or the whole new one. A store that is opened
on the new one has what the live store has, in whatever order the entries were
listed, and evicts nothing on the way.
-/
theorem compaction_preserves (hlog : cfg.logEnabled = true)
    (h : (system cfg []).ReachableBy (fun _ a => a.Fits) s)
    {entries : List (Bytes × Bytes)} (hentries : entries.Perm s.store.map.snapshot)
    (temp : Option Bytes) :
    (∀ r, (Compactor.rewriting s.store.log.file temp entries).Reachable r →
        r.path = s.store.log.file ∨ r.path = Compactor.rewrite entries)
      ∧ (∃ r, (Compactor.rewriting s.store.log.file temp entries).Reachable r
        ∧ r.stage = .returned ∧ r.path = Compactor.rewrite entries)
      ∧ (Store.openOn cfg (Compactor.rewrite entries)).map.contents = s.store.map.contents
      ∧ (Store.openOn cfg (Compactor.rewrite entries)).map.evictions = 0
      ∧ (Store.openOn cfg (Compactor.rewrite entries)).log.file = Compactor.rewrite entries
      ∧ (Compactor.rewrite entries).length ≤ s.store.log.file.length := by
  obtain ⟨-, -, hclosed⟩ := @openOn_ops cfg hlog [] (by simp)
  obtain ⟨logged, hstale⟩ := nothingStale_reachable hlog hclosed h
  obtain ⟨cs, hholds, hbounded⟩ := hstale.budget
  have hmem : ∀ entry ∈ entries, s.store.map.contents entry.1 = some entry.2 :=
    fun entry => (hstale.budget.mem_snapshot hentries entry.1 entry.2).mp
  have hfits : ∀ op ∈ setOps entries, op.Fits := by
    intro op hop
    obtain ⟨entry, he, rfl⟩ := List.mem_map.mp hop
    exact hstale.loggable _ _ (hstale.memory _ _ (hmem entry he))
  -- the new log is a log of operations, and what it means is to carry them out
  obtain ⟨hmap, hfile, _⟩ := openOn_ops hlog hfits
  rw [bytes_setOps] at hmap hfile
  obtain ⟨hcontents, hcount⟩ := replay_entries hbounded entries (hholds.contents ▸ hmem)
    ShardedMap.holds_init (fun i key value hk => absurd hk (by simp))
  refine ⟨fun r hr => ?_, Compactor.exists_rewritten _ temp entries, ?_, ?_, hfile,
    length_rewrite_le hstale hentries⟩
  · rw [(Compactor.atomic_reachable hr).path]
    split
    · exact .inr rfl
    · exact .inl rfl
  · rw [hmap, hcontents, ShardedMap.contents_init, runUpdates_snapshot hstale.budget hentries]
  · rw [hmap, hcount]
    rfl

/-- Three keys where there is room for two, and a read in between. -/
def crowded : List Act :=
  [.write (.set [97] [49]), .write (.set [98] [49]), .get [97],
    .write (.commitTransaction 1 [{ key := [99], value := [50] }, { erase := true, key := [100] }])]

theorem compaction_preserves_crowded :
    ∃ s, (system tight []).ReachableBy (fun _ a => a.Fits) s
      ∧ [([99], [50]), ([97], [49])].Perm s.store.map.snapshot
      ∧ (Store.openOn tight (Compactor.rewrite [([99], [50]), ([97], [49])])).map.contents
        = s.store.map.contents
      ∧ (Compactor.rewrite [([99], [50]), ([97], [49])]).length ≤ s.store.log.file.length := by
  obtain ⟨s, hreach, hentries⟩ := System.exists_reachableBy
    (p := fun s => [([99], [50]), ([97], [49])].Perm s.store.map.snapshot)
    (show (system tight []).ReachableBy (fun _ a => a.Fits) _ from .init rfl) crowded
    (by decide +kernel) (by decide +kernel)
  obtain ⟨_, _, hcontents, _, _, hlen⟩ := compaction_preserves rfl hreach hentries none
  exact ⟨s, hreach, hentries, hcontents, hlen⟩

end Lifetime

end KvStore
