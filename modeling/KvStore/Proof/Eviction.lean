import KvStore.Proof.Lifetime

/-!
# Evicted twice

An eviction is not logged. When the log is replayed the shards fill up once more, and
the budget decides once more what has to go. The budget is the same, but what it is
applied to is not: the live store drops what was not used for longest, and a replay,
which sees the writes and no reads, drops what was not written for longest.

The store and its replay agree as long as the two orders do, not everywhere, but on
who goes. That is all it takes: a shard that was replayed so far holds the entries of
the live one in the order they were written.
-/

namespace KvStore

open Lib Wal Protocol

/-! ## Mutations first, evictions after -/

section Settling

variable {cfg : MapConfig} {cs cs' : Caches cfg}

/-- The mutations of an operation. -/
def Op.mutations : Op → List Mutation
  | .set key value => [{ key := key, value := value }]
  | .del key => [{ erase := true, key := key }]
  | .commitTransaction _ mutations => mutations

/-- The caches with an operation in, and nothing evicted yet. -/
def Op.mutate (cs : Caches cfg) (op : Op) : Caches cfg := op.mutations.foldl Caches.applyOne cs

theorem onCaches_eq_settle (h : cs.Bounded) (op : Op) :
    op.onCaches cs = fun i => Caches.settle cfg (op.mutate cs i) := by
  cases op with
  | set key value => exact h.set_eq key value
  | del key =>
      funext i
      exact (Caches.settle_of_inBudget (h.del key i)).symm
  | commitTransaction txnId mutations => exact h.applyAtomically_eq mutations

/-- The same entries, in whatever order. -/
def Caches.Same (cs cs' : Caches cfg) : Prop := ∀ i key, (cs i).lookup key = (cs' i).lookup key

theorem same_applyOne (h : cs.Same cs') (mutation : Mutation) :
    (cs.applyOne mutation).Same (cs'.applyOne mutation) := by
  intro i key
  unfold Caches.applyOne
  by_cases hi : i = cfg.shardFor mutation.key
  · subst hi
    rw [Function.update_self, Function.update_self]
    by_cases hkey : key = mutation.key
    · subst hkey
      split
      · rw [AList.lookup_erase, AList.lookup_erase]
      · rw [AList.lookup_insert, AList.lookup_insert]
    · split
      · rw [AList.lookup_erase_ne hkey, AList.lookup_erase_ne hkey, h]
      · rw [AList.lookup_insert_ne hkey, AList.lookup_insert_ne hkey, h]
  · rw [Function.update_of_ne hi, Function.update_of_ne hi, h]

theorem same_mutate (h : cs.Same cs') (op : Op) : (op.mutate cs).Same (op.mutate cs') := by
  unfold Op.mutate
  generalize op.mutations = mutations
  induction mutations generalizing cs cs' with
  | nil => exact h
  | cons mutation mutations ih => exact ih (same_applyOne h mutation)

theorem settle_sublist (c : Cache Bytes Bytes) :
    (Caches.settle cfg c).entries.Sublist c.entries := by
  unfold Caches.settle Shard.settle
  split
  · exact (Cache.trimmed_isFront _ _ _).sublist
  · exact List.Sublist.refl _

theorem mem_iff_of_lookup {c c' : Cache Bytes Bytes} {key : Bytes}
    (h : c.lookup key = c'.lookup key) : key ∈ c ↔ key ∈ c' := by
  rw [← AList.lookup_isSome, ← AList.lookup_isSome, h]

/-- Of the same entries, the same are left when the same keys are. -/
theorem same_settle_iff (h : cs.Same cs') :
    (∀ i, ∀ key ∈ (cs i).keys, key ∈ Caches.settle cfg (cs i) ↔ key ∈ Caches.settle cfg (cs' i))
      ↔ Caches.Same (fun i => Caches.settle cfg (cs i)) fun i => Caches.settle cfg (cs' i) := by
  constructor
  · intro hkeys i key
    dsimp only
    cases hv : (Caches.settle cfg (cs i)).lookup key with
    | some value =>
        have hcs : (cs i).lookup key = some value := Shard.lookup_settle hv
        have hin : key ∈ cs i := AList.lookup_isSome.mp (by rw [hcs]; rfl)
        have hmem := (hkeys i key hin).mp (AList.lookup_isSome.mp (by rw [hv]; rfl))
        obtain ⟨value', hv'⟩ := Option.isSome_iff_exists.mp (AList.lookup_isSome.mpr hmem)
        have hcs' : (cs' i).lookup key = some value' := Shard.lookup_settle hv'
        rw [hv', ← hcs', ← h, hcs]
    | none =>
        -- what is not left there is not left here either
        rw [eq_comm, AList.lookup_eq_none]
        intro hmem
        obtain ⟨value, hv'⟩ := Option.isSome_iff_exists.mp (AList.lookup_isSome.mpr hmem)
        have hcs' : (cs' i).lookup key = some value := Shard.lookup_settle hv'
        have hin : key ∈ cs i := AList.lookup_isSome.mp (by rw [h, hcs']; rfl)
        exact AList.lookup_eq_none.mp hv ((hkeys i key hin).mpr hmem)
  · exact fun hsame i key _ => mem_iff_of_lookup (hsame i key)

/-- Maps with the same contents hold the same entries. -/
theorem contents_eq_iff {m m' : ShardedMap cfg} (hm : m.Holds cs) (hm' : m'.Holds cs') :
    m.contents = m'.contents ↔ cs.Same cs' := by
  rw [hm.contents, hm'.contents]
  constructor
  · intro h i key
    by_cases hi : cfg.shardFor key = i
    · subst hi
      exact congrFun h key
    · -- it is in neither, since it belongs somewhere else
      rw [AList.lookup_eq_none.mpr fun hkey => hi (hm.home i key hkey),
        AList.lookup_eq_none.mpr fun hkey => hi (hm'.home i key hkey)]
  · exact fun h => funext fun key => h _ key

end Settling

namespace Eviction

variable {cfg : StoreConfig}

/-- A call of a client. -/
inductive Act where
  | write (op : Op)
  | get (key : Bytes)
  deriving DecidableEq, Repr

/-- A store, and what was written to it. -/
structure State (cfg : StoreConfig) where
  store : Store cfg
  /-- Ghost: the entries of every shard, the most recently written first. -/
  written : Caches cfg.toMapConfig := fun _ => ∅

/-- One call. -/
def step (s : State cfg) : Act → Option (State cfg)
  | .write op =>
      let store := (s.store.perform op {}).1
      some
        { store := store
          written := fun i =>
            (op.mutate s.written i).keep fun key => (store.map.contents key).isSome }
  | .get key => some { s with store := (s.store.get key).1 }

/-- A store that started with an empty log. -/
def system (cfg : StoreConfig) : System (State cfg) Act where
  init s := s = { store := Store.openOn cfg [] }
  step := step

/--
The keys that a write evicts are those it would evict if the entries of a shard were
in the order of their last write, and not in that of their last use.
-/
def SameVictims (s : State cfg) : Act → Prop
  | .write op =>
      ∀ i, ∀ key ∈ (op.mutate s.store.map.caches i).keys,
        key ∈ Caches.settle cfg.toMapConfig (op.mutate s.store.map.caches i)
          ↔ key ∈ Caches.settle cfg.toMapConfig (op.mutate s.written i)
  | .get _ => True

instance (s : State cfg) (a : Act) : Decidable (SameVictims s a) := by
  unfold SameVictims
  split <;> infer_instance

/-- A write that a replay can read, and that evicts what a replay would evict. -/
def Replayable (s : State cfg) : Act → Prop
  | .write op => op.Fits ∧ SameVictims s (.write op)
  | .get _ => True

instance (s : State cfg) : (a : Act) → Decidable (Replayable s a)
  | .write op => inferInstanceAs (Decidable (op.Fits ∧ SameVictims s (.write op)))
  | .get _ => inferInstanceAs (Decidable True)

/-- What a replay of the log has is what is live, in the order of the writes. -/
structure Agrees (s : State cfg) (ops : List Op) : Prop where
  budget : CachesInBudget s.store.map
  fits : ∀ op ∈ ops, op.Fits
  logged : s.store.log.file = ops.flatMap Op.bytes
  replayed : (Meaning.applyOps ops (ShardedMap.init cfg.toMapConfig)).Holds s.written
  bounded : s.written.Bounded
  same : s.written.Same s.store.map.caches

variable {s s' : State cfg} {ops : List Op}

theorem Agrees.holds_caches (h : Agrees s ops) :
    s.store.map.Holds s.store.map.caches ∧ s.store.map.caches.Bounded := by
  obtain ⟨cs, hm, hb⟩ := h.budget
  exact ⟨hm.caches, hb.caches hm⟩

/-- The store after an operation, and its replay. -/
theorem Agrees.after (h : Agrees s ops) (op : Op) :
    (op.applyTo s.store.map).Holds
        (fun i => Caches.settle cfg.toMapConfig (op.mutate s.store.map.caches i))
      ∧ (Meaning.applyOps (ops ++ [op]) (ShardedMap.init cfg.toMapConfig)).Holds
        (fun i => Caches.settle cfg.toMapConfig (op.mutate s.written i)) := by
  obtain ⟨hm, hb⟩ := h.holds_caches
  rw [← onCaches_eq_settle hb, ← onCaches_eq_settle h.bounded, Meaning.applyOps_append]
  exact ⟨holds_applyTo hm op, holds_applyTo h.replayed op⟩

theorem Agrees.sameVictims_iff (h : Agrees s ops) (op : Op) :
    SameVictims s (.write op)
      ↔ Caches.Same (fun i => Caches.settle cfg.toMapConfig (op.mutate s.store.map.caches i))
          fun i => Caches.settle cfg.toMapConfig (op.mutate s.written i) :=
  same_settle_iff (same_mutate (fun i key => (h.same i key).symm) op)

/-- In the order of the writes, those that stay are those that a replay keeps. -/
theorem Agrees.written_eq (h : Agrees s ops) {op : Op} (hvictims : SameVictims s (.write op)) :
    (fun i => (op.mutate s.written i).keep fun key =>
      ((op.applyTo s.store.map).contents key).isSome)
      = fun i => Caches.settle cfg.toMapConfig (op.mutate s.written i) := by
  funext i
  refine Cache.keep_of_sublist (settle_sublist _) fun key hkey => ?_
  have hhome : cfg.shardFor key = i := (h.replayed.foldl_applyOne op.mutations).home i key hkey
  have hsame := (h.sameVictims_iff op).mp hvictims i key
  rw [(h.after op).1.contents, Caches.contents, hhome]
  rw [← AList.lookup_isSome, ← hsame]

theorem agrees_write (hlog : cfg.logEnabled = true) (h : Agrees s ops) {op : Op} (hfit : op.Fits)
    (hvictims : SameVictims s (.write op)) :
    Agrees
      { store := (s.store.perform op {}).1
        written := fun i => (op.mutate s.written i).keep fun key =>
          ((s.store.perform op {}).1.map.contents key).isSome }
      (ops ++ [op]) := by
  obtain ⟨_, _, _, hmap⟩ := perform_ok hlog s.store op
  obtain ⟨hlive, hreplayed⟩ := h.after op
  have hwritten := h.written_eq hvictims
  rw [← hmap] at hwritten hlive
  refine ⟨?_, ?_, ?_, ?_, ?_, ?_⟩
  · show CachesInBudget (s.store.perform op {}).1.map
    rw [hmap]
    exact h.budget.applyTo op
  · exact Op.fits_concat h.fits hfit
  · exact perform_logged hlog h.logged op
  · dsimp only
    rw [hwritten]
    exact hreplayed
  · dsimp only
    rw [hwritten]
    exact fun i => Caches.inBudget_settle _
  · -- replay evicts the same keys
    dsimp only
    rw [hwritten]
    intro i key
    rw [hlive.lookup_caches]
    exact ((h.sameVictims_iff op).mp hvictims i key).symm

/-- Reading moves entries about, and takes none away. -/
theorem agrees_get (h : Agrees s ops) (key : Bytes) :
    Agrees { s with store := (s.store.get key).1 } ops := by
  obtain ⟨hmap, hl⟩ := Store.get_store s.store key
  obtain ⟨hm, hb⟩ := h.holds_caches
  have hget := (hm.get key).1
  rw [← hmap] at hget
  refine ⟨⟨_, hget, hb.get key⟩, h.fits, ?_, h.replayed, h.bounded, ?_⟩
  · show (s.store.get key).1.log.file = _
    rw [hl, h.logged]
  · refine (contents_eq_iff h.replayed hget.caches).mp ?_
    rw [hmap, ShardedMap.contents_get]
    exact (contents_eq_iff h.replayed hm).mpr h.same

theorem agrees_step (hlog : cfg.logEnabled = true) (h : Agrees s ops) {a : Act}
    (hok : Replayable s a) (hs : step s a = some s') : ∃ ops', Agrees s' ops' := by
  cases a with
  | write op =>
      cases hs
      exact ⟨_, agrees_write hlog h hok.1 hok.2⟩
  | get key =>
      cases hs
      exact ⟨ops, agrees_get h key⟩

theorem agrees_init (hlog : cfg.logEnabled = true) :
    Agrees ({ store := Store.openOn cfg [] } : State cfg) [] := by
  obtain ⟨hmap, hfile⟩ := openOn_nil hlog
  have hheld : (Store.openOn cfg []).map.Holds fun _ => ∅ := by
    rw [hmap]
    exact ShardedMap.holds_init
  exact ⟨⟨_, hheld, Caches.bounded_empty⟩, by simp, hfile, ShardedMap.holds_init,
    Caches.bounded_empty, fun i key => (hheld.lookup_caches i key).symm⟩

theorem agrees_reachable (hlog : cfg.logEnabled = true)
    (h : (system cfg).ReachableBy Replayable s) : ∃ ops, Agrees s ops := by
  refine h.invariant (I := fun s => ∃ ops, Agrees s ops) ?_ ?_
  · rintro s rfl
    exact ⟨[], agrees_init hlog⟩
  · rintro s a s' ⟨ops, hs⟩ hok hstep
    exact agrees_step hlog hs hok hstep

end Eviction

end KvStore
