import KvStore.Lib.Cache
import KvStore.Store.ShardedMap

/-!
# What the shards are

A shard keeps its entries in one structure and the order of their last use in
another, and the order in turn is kept twice, as a list and as an index into it.
Together they are a cache: a list of entries, the most recently used first. The
policy *tracks* a cache, a shard *holds* one, and every call of the map is what the
caches do.

Without a memory budget there is no policy, and the order in the cache means nothing.
-/

namespace KvStore

open Lib

/-! ## The policy -/

/-- Replacing the value of a key shows at that key only. -/
theorem lookup_replace {V : Type} (key : Bytes) (v : V) (s : AList fun _ : Bytes => V)
    (hkey : key ∈ s) (k : Bytes) :
    (s.replace key v).lookup k = if k = key then some v else s.lookup k := by
  obtain ⟨es, hes⟩ := s
  replace hkey : key ∈ es.keys := hkey
  show List.dlookup k (List.kreplace key v es) = if k = key then some v else List.dlookup k es
  clear hes
  induction es with
  | nil => exact absurd hkey (by simp [List.keys])
  | cons e es ih =>
      obtain ⟨a, b⟩ := e
      by_cases ha : key = a
      · subst ha
        rw [List.kreplace, List.lookmap_cons_some _ _ (b := ⟨key, v⟩) (by simp)]
        by_cases hk : k = key
        · subst hk
          rw [List.dlookup_cons_eq, if_pos rfl]
        · rw [List.dlookup_cons_ne _ _ hk, List.dlookup_cons_ne _ _ hk, if_neg hk]
      · -- the entry is further back
        have hin : key ∈ es.keys := by
          rw [List.keys_cons, List.mem_cons] at hkey
          exact hkey.resolve_left ha
        rw [List.kreplace, List.lookmap_cons_none _ _ (by simp [ha])]
        by_cases hk : k = a
        · subst hk
          rw [List.dlookup_cons_eq, List.dlookup_cons_eq, if_neg (Ne.symm ha)]
        · rw [List.dlookup_cons_ne _ _ hk, List.dlookup_cons_ne _ _ hk]
          exact ih hin

namespace LruPolicy

variable {V : Type} {w : Bytes → V → Nat} {p : LruPolicy} {c : Cache Bytes V}

/-- The list and the index have the entries of a cache, in their order. -/
structure Lists (w : Bytes → V → Nat) (p : LruPolicy) (c : Cache Bytes V) : Prop where
  keys : p.recency.map Prod.snd = c.keys
  nodes : (p.recency.map Prod.fst).Nodup
  fresh : ∀ x ∈ p.recency, x.1 < p.nextNode
  index : ∀ key entry, p.index.lookup key = some entry ↔
    (entry.node, key) ∈ p.recency ∧ ∃ v, c.lookup key = some v ∧ entry.bytes = w key v

/-- The policy tracks the entries of a cache: it lists them, and counts their sizes. -/
structure Tracks (w : Bytes → V → Nat) (p : LruPolicy) (c : Cache Bytes V) : Prop
    extends Lists w p c where
  bytes : p.bytes = Cache.weight w c

theorem lists_empty : Lists w {} (∅ : Cache Bytes V) := by
  refine ⟨rfl, List.nodup_nil, by simp, fun key entry => ?_⟩
  simp

theorem tracks_empty : Tracks w {} (∅ : Cache Bytes V) := ⟨lists_empty, rfl⟩

/-- What is in the cache is in the index. -/
theorem Lists.lookup_some (h : Lists w p c) {key : Bytes} {v : V} (hv : c.lookup key = some v) :
    ∃ node, p.index.lookup key = some { node := node, bytes := w key v }
      ∧ (node, key) ∈ p.recency := by
  have hmem : key ∈ p.recency.map Prod.snd := by
    rw [h.keys]
    exact AList.mem_keys.mp (AList.lookup_isSome.mp (by rw [hv]; rfl))
  obtain ⟨⟨node, k⟩, hin, rfl⟩ := List.mem_map.mp hmem
  exact ⟨node, (h.index _ _).mpr ⟨hin, v, hv, rfl⟩, hin⟩

theorem Lists.lookup_none (h : Lists w p c) {key : Bytes} (hv : c.lookup key = none) :
    p.index.lookup key = none := by
  rw [Option.eq_none_iff_forall_not_mem]
  intro entry hentry
  obtain ⟨_, v, hv', _⟩ := (h.index _ _).mp hentry
  rw [hv] at hv'
  exact absurd hv' (by simp)

/-- The index has the keys of the cache. -/
theorem Lists.mem_index (h : Lists w p c) (key : Bytes) : key ∈ p.index ↔ key ∈ c := by
  rw [← AList.lookup_isSome, ← AList.lookup_isSome]
  cases hv : c.lookup key with
  | none => rw [h.lookup_none hv]; simp
  | some v =>
      obtain ⟨node, hidx, _⟩ := h.lookup_some hv
      rw [hidx]
      simp

theorem Lists.entries_eq (h : Lists w p c) : p.entries = c.entries.length := by
  have hperm : p.index.keys.Perm c.keys := by
    rw [List.perm_ext_iff_of_nodup p.index.keys_nodup c.keys_nodup]
    intro key
    rw [← AList.mem_keys, ← AList.mem_keys]
    exact h.mem_index key
  have hlen := hperm.length_eq
  rw [AList.keys, AList.keys, List.keys, List.keys, List.length_map, List.length_map] at hlen
  exact hlen

/-! ### Nodes -/

section Nodes

variable {l : List (Nat × Bytes)} {node : Nat} {key : Bytes}

theorem filter_node (hnodes : (l.map Prod.fst).Nodup) (hin : (node, key) ∈ l) :
    l.filter (fun x => x.1 = node) = [(node, key)] := by
  induction l with
  | nil => exact absurd hin (by simp)
  | cons x l ih =>
      rw [List.map_cons, List.nodup_cons] at hnodes
      rcases List.mem_cons.mp hin with rfl | hin
      · -- no other node has this number
        have hnone : l.filter (fun x => x.1 = node) = [] := by
          rw [List.filter_eq_nil_iff]
          intro y hy heq
          exact hnodes.1 (List.mem_map.mpr ⟨y, hy, of_decide_eq_true heq⟩)
        rw [List.filter_cons_of_pos (by simp), hnone]
      · have hne : x.1 ≠ node := by
          rintro rfl
          exact hnodes.1 (List.mem_map.mpr ⟨_, hin, rfl⟩)
        rw [List.filter_cons_of_neg (by simpa using hne), ih hnodes.2 hin]

/-- A node has one key, and a key one node. -/
theorem node_iff_key (hnodes : (l.map Prod.fst).Nodup) (hkeys : (l.map Prod.snd).Nodup)
    (hin : (node, key) ∈ l) {x : Nat × Bytes} (hx : x ∈ l) : x.1 = node ↔ x.2 = key := by
  constructor
  · intro h
    rw [List.inj_on_of_nodup_map hnodes hx hin h]
  · intro h
    rw [List.inj_on_of_nodup_map hkeys hx hin h]

theorem keys_without_node (hnodes : (l.map Prod.fst).Nodup) (hkeys : (l.map Prod.snd).Nodup)
    (hin : (node, key) ∈ l) :
    (l.filter fun x => x.1 ≠ node).map Prod.snd = (l.map Prod.snd).filter fun k => k ≠ key := by
  rw [List.filter_map]
  congr 1
  refine List.filter_congr fun x hx => ?_
  have hiff := node_iff_key hnodes hkeys hin hx
  by_cases hk : x.2 = key
  · simp [hiff.mpr hk, hk]
  · simp [mt hiff.mp hk, hk]

theorem spliceToFront_perm (l : List (Nat × Bytes)) (node : Nat) :
    (spliceToFront l node).Perm l := by
  have h := List.filter_append_perm (fun x : Nat × Bytes => decide (x.1 = node)) l
  rw [spliceToFront]
  refine (List.Perm.of_eq ?_).trans h
  congr 1
  refine List.filter_congr fun x _ => ?_
  simp

theorem keys_spliceToFront (hnodes : (l.map Prod.fst).Nodup) (hkeys : (l.map Prod.snd).Nodup)
    (hin : (node, key) ∈ l) :
    (spliceToFront l node).map Prod.snd = key :: (l.map Prod.snd).filter fun k => k ≠ key := by
  rw [spliceToFront, filter_node hnodes hin, List.map_append, keys_without_node hnodes hkeys hin]
  rfl

end Nodes

theorem Lists.nodup_keys (h : Lists w p c) : (p.recency.map Prod.snd).Nodup := by
  rw [h.keys]
  exact c.keys_nodup

/-! ### The calls -/

theorem Lists.keys_splice (h : Lists w p c) {node : Nat} {key : Bytes} (v : V)
    (hin : (node, key) ∈ p.recency) :
    (spliceToFront p.recency node).map Prod.snd = (c.insert key v).keys := by
  rw [keys_spliceToFront h.nodes h.nodup_keys hin, h.keys, Cache.keys_insert_filter]

theorem Lists.onAccess (h : Lists w p c) (key : Bytes) :
    Lists w (p.onAccess key) (Cache.touch key c) := by
  unfold LruPolicy.onAccess
  cases hv : c.lookup key with
  | none =>
      rw [h.lookup_none hv, Cache.touch, hv]
      exact h
  | some v =>
      obtain ⟨node, hidx, hin⟩ := h.lookup_some hv
      have hperm := spliceToFront_perm p.recency node
      rw [hidx]
      refine ⟨?_, (hperm.map _).nodup_iff.mpr h.nodes, fun x hx => h.fresh x (hperm.mem_iff.mp hx),
        fun k entry => ?_⟩
      · rw [Cache.touch, hv]
        exact h.keys_splice v hin
      · rw [Cache.lookup_touch, hperm.mem_iff]
        exact h.index k entry

/-- Whatever is done to the counter, the key comes to the front with its new size. -/
theorem Lists.insertWith (add : Nat → Nat → Nat) (h : Lists w p c) (key : Bytes) (v : V) :
    Lists w (p.insertWith add key (w key v)) (c.insert key v) := by
  unfold LruPolicy.insertWith
  cases hv : c.lookup key with
  | none =>
      -- a new node, which no other entry of the index has
      have hnot : key ∉ p.recency.map Prod.snd := by
        rw [h.keys]
        exact AList.lookup_eq_none.mp hv
      rw [h.lookup_none hv]
      refine ⟨?_, ?_, ?_, fun k entry => ?_⟩
      · rw [Cache.keys_insert_filter, ← Cache.keys_erase_filter, Cache.erase_of_lookup_none hv,
          ← h.keys]
        rfl
      · refine List.nodup_cons.mpr ⟨fun hmem => ?_, h.nodes⟩
        obtain ⟨x, hx, hxn⟩ := List.mem_map.mp hmem
        exact absurd (h.fresh x hx) (by rw [hxn]; exact Nat.lt_irrefl _)
      · intro x hx
        rcases List.mem_cons.mp hx with rfl | hx
        · exact Nat.lt_succ_self _
        · exact Nat.lt_succ_of_lt (h.fresh x hx)
      · by_cases hk : k = key
        · subst hk
          rw [AList.lookup_insert, AList.lookup_insert, List.mem_cons]
          constructor
          · intro hentry
            cases hentry
            exact ⟨.inl rfl, v, rfl, rfl⟩
          · obtain ⟨node, bytes⟩ := entry
            rintro ⟨hin | hin, v', hv', hbytes⟩
            · cases hin
              cases hv'
              rw [show bytes = w k v from hbytes]
            · exact absurd (List.mem_map.mpr ⟨_, hin, rfl⟩) hnot
        · rw [AList.lookup_insert_ne hk, AList.lookup_insert_ne hk, h.index, List.mem_cons]
          simp [hk]
  | some v0 =>
      obtain ⟨node, hidx, hin⟩ := h.lookup_some hv
      have hperm := spliceToFront_perm p.recency node
      have hmem : key ∈ p.index := AList.lookup_isSome.mp (by rw [hidx]; rfl)
      rw [hidx]
      refine ⟨h.keys_splice v hin, (hperm.map _).nodup_iff.mpr h.nodes,
        fun x hx => h.fresh x (hperm.mem_iff.mp hx), fun k entry => ?_⟩
      rw [lookup_replace key _ _ hmem, hperm.mem_iff]
      by_cases hk : k = key
      · subst hk
        rw [if_pos rfl, AList.lookup_insert]
        constructor
        · intro hentry
          cases hentry
          exact ⟨hin, v, rfl, rfl⟩
        · obtain ⟨node', bytes⟩ := entry
          rintro ⟨hin', v', hv', hbytes⟩
          have hnode := (node_iff_key h.nodes h.nodup_keys hin hin').mpr rfl
          cases hv'
          dsimp only at hnode hbytes
          rw [hnode, hbytes]
      · rw [if_neg hk, AList.lookup_insert_ne hk, h.index]

theorem Lists.onErase (h : Lists w p c) (key : Bytes) :
    Lists w (p.onErase key) (c.erase key) := by
  unfold LruPolicy.onErase
  cases hv : c.lookup key with
  | none =>
      rw [h.lookup_none hv, Cache.erase_of_lookup_none hv]
      exact h
  | some v =>
      obtain ⟨node, hidx, hin⟩ := h.lookup_some hv
      rw [hidx]
      refine ⟨?_, h.nodes.sublist (List.filter_sublist.map _),
        fun x hx => h.fresh x (List.mem_of_mem_filter hx), fun k entry => ?_⟩
      · rw [Cache.keys_erase_filter, ← h.keys]
        exact keys_without_node h.nodes h.nodup_keys hin
      · by_cases hk : k = key
        · subst hk
          rw [AList.lookup_erase, AList.lookup_erase]
          simp
        · rw [AList.lookup_erase_ne hk, AList.lookup_erase_ne hk, h.index, List.mem_filter]
          -- another key has another node
          refine ⟨fun hkeep => ⟨⟨hkeep.1, ?_⟩, hkeep.2⟩, fun hkeep => ⟨hkeep.1.1, hkeep.2⟩⟩
          have hiff := node_iff_key h.nodes h.nodup_keys hin hkeep.1
          exact decide_eq_true (mt hiff.mp hk)

/-! ### The counter -/

theorem onAccess_bytes (p : LruPolicy) (key : Bytes) : (p.onAccess key).bytes = p.bytes := by
  unfold LruPolicy.onAccess
  split <;> rfl

theorem Lists.insertWith_bytes (add : Nat → Nat → Nat) (h : Lists w p c) (key : Bytes) (n : Nat) :
    (p.insertWith add key n).bytes
      = add ((c.lookup key).elim p.bytes fun v => sizeSub p.bytes (w key v)) n := by
  unfold LruPolicy.insertWith
  cases hv : c.lookup key with
  | none => rw [h.lookup_none hv]; rfl
  | some v =>
      obtain ⟨node, hidx, -⟩ := h.lookup_some hv
      rw [hidx]
      rfl

theorem Lists.onErase_bytes (h : Lists w p c) (key : Bytes) :
    (p.onErase key).bytes = (c.lookup key).elim p.bytes fun v => sizeSub p.bytes (w key v) := by
  unfold LruPolicy.onErase
  cases hv : c.lookup key with
  | none => rw [h.lookup_none hv]; rfl
  | some v =>
      obtain ⟨node, hidx, -⟩ := h.lookup_some hv
      rw [hidx]
      rfl

theorem sizeSub_of_le {a b : Nat} (h : b ≤ a) : sizeSub a b = a - b := if_pos h

/-- What is subtracted for a key was added for it before. -/
theorem Tracks.bytes_erase (h : Tracks w p c) (key : Bytes) :
    (c.lookup key).elim p.bytes (fun v => sizeSub p.bytes (w key v))
      = Cache.weight w (c.erase key) := by
  cases hv : c.lookup key with
  | none =>
      rw [Cache.erase_of_lookup_none hv]
      exact h.bytes
  | some v =>
      have hw := Cache.weight_erase (w := w) hv
      show sizeSub p.bytes (w key v) = _
      rw [h.bytes, sizeSub_of_le (by omega)]
      omega

theorem Tracks.onAccess (h : Tracks w p c) (key : Bytes) :
    Tracks w (p.onAccess key) (Cache.touch key c) := by
  refine ⟨h.toLists.onAccess key, ?_⟩
  rw [onAccess_bytes, h.bytes, Cache.weight_touch]

theorem Tracks.onStored (h : Tracks w p c) (key : Bytes) (v : V) :
    Tracks w (p.onStored key (w key v)) (c.insert key v) := by
  refine ⟨h.toLists.insertWith _ key v, ?_⟩
  rw [LruPolicy.onStored, h.toLists.insertWith_bytes, h.bytes_erase, Cache.weight_insert]
  exact Nat.add_comm _ _

/-- **As long as the sizes have a sum that is a `size_t`**, nothing wraps. -/
theorem Tracks.onInsert_eq (h : Tracks w p c) {key : Bytes} {v : V}
    (hlt : Cache.weight w (c.insert key v) < 2 ^ 64) :
    p.onInsert key (w key v) = p.onStored key (w key v) := by
  have hsum := h.bytes_erase key
  rw [Cache.weight_insert, ← hsum] at hlt
  unfold LruPolicy.onInsert LruPolicy.onStored LruPolicy.insertWith
  cases hv : c.lookup key with
  | none =>
      rw [hv] at hlt
      rw [h.lookup_none hv]
      dsimp only
      rw [sizeAdd, Nat.mod_eq_of_lt (by rw [Nat.add_comm]; exact hlt)]
  | some v0 =>
      rw [hv] at hlt
      obtain ⟨node, hidx, -⟩ := h.lookup_some hv
      rw [hidx]
      dsimp only
      rw [sizeAdd, Nat.mod_eq_of_lt (by rw [Nat.add_comm]; exact hlt)]

theorem Tracks.onErase (h : Tracks w p c) (key : Bytes) :
    Tracks w (p.onErase key) (c.erase key) := by
  refine ⟨h.toLists.onErase key, ?_⟩
  rw [h.toLists.onErase_bytes, h.bytes_erase]

theorem Tracks.foldl_onErase (h : Tracks w p c) (keys : List Bytes) :
    Tracks w (keys.foldl LruPolicy.onErase p) (keys.foldl (fun c key => c.erase key) c) := by
  induction keys generalizing p c with
  | nil => exact h
  | cons key keys ih => exact ih (h.onErase key)

/-- The victim is the key at the back, and it is as if it had been erased. -/
theorem Lists.evict (h : Lists w p c) {front : List (Σ _ : Bytes, V)} {key : Bytes} {v : V}
    (hback : c.entries = front ++ [⟨key, v⟩]) : p.evict = some (key, p.onErase key) := by
  have hv : c.lookup key = some v := AList.mem_lookup_iff.mpr (by rw [hback]; simp)
  obtain ⟨node, hidx, hin⟩ := h.lookup_some hv
  have hkeys : p.recency.map Prod.snd = front.keys ++ [key] := by
    rw [h.keys, AList.keys, hback]
    exact List.map_append
  obtain ⟨l, last, hsplit, _, hlast⟩ := List.map_eq_append_iff.mp hkeys
  obtain ⟨⟨node', key'⟩, rfl⟩ : ∃ x, last = [x] :=
    List.length_eq_one_iff.mp (by rw [← List.length_map Prod.snd, hlast]; rfl)
  obtain rfl : key' = key := List.singleton_inj.mp hlast
  -- the node at the back is the one the index has for the key
  have hnode : node' = node :=
    (node_iff_key h.nodes h.nodup_keys hin (x := (node', key')) (by rw [hsplit]; simp)).mpr rfl
  subst hnode
  have hfilter : p.recency.filter (fun x => x.1 ≠ node') = l := by
    have hnodes := h.nodes
    rw [hsplit, List.map_append, List.nodup_append] at hnodes
    rw [hsplit, List.filter_append, List.filter_cons_of_neg (by simp), List.filter_nil,
      List.append_nil,
      List.filter_eq_self]
    intro x hx
    exact decide_eq_true (hnodes.2.2 _ (List.mem_map_of_mem hx) _ (by simp))
  unfold LruPolicy.evict LruPolicy.onErase
  rw [hidx, show p.recency.getLast? = some (node', key') by rw [hsplit, List.getLast?_concat]]
  dsimp only
  rw [hidx, hfilter, hsplit, List.dropLast_concat]

end LruPolicy

/-! ## A shard -/

/-- `entryBytes`. -/
def entryBytes (key value : Bytes) : Nat := key.length + value.length + Shard.kEntryOverheadBytes

namespace Shard

variable {evicting : Bool}

/-- The shard holds the entries of a cache. -/
structure Holds (s : Shard evicting) (c : Cache Bytes Bytes) : Prop where
  lookup : ∀ key, s.map.lookup key = c.lookup key
  tracked : ∀ p, s.policy = some p → p.Tracks entryBytes c

variable {s : Shard evicting} {c : Cache Bytes Bytes}

theorem holds_init (evicting : Bool) : Holds (init evicting) ∅ := by
  refine ⟨fun _ => rfl, fun p hp => ?_⟩
  unfold init at hp
  dsimp only at hp
  split at hp
  · cases hp
    exact LruPolicy.tracks_empty
  · exact absurd hp (by simp)

theorem Holds.insert (h : s.Holds c) (key value : Bytes) :
    (s.insert key value).Holds (c.insert key value) := by
  refine ⟨fun k => ?_, fun p hp => ?_⟩
  · by_cases hk : k = key
    · subst hk
      rw [Shard.insert, AList.lookup_insert, AList.lookup_insert]
    · rw [Shard.insert, AList.lookup_insert_ne hk, AList.lookup_insert_ne hk, h.lookup]
  · obtain ⟨p0, hp0, rfl⟩ := Option.map_eq_some_iff.mp hp
    exact (h.tracked p0 hp0).onStored key value

theorem Holds.erase (h : s.Holds c) (key : Bytes) : (s.erase key).Holds (c.erase key) := by
  refine ⟨fun k => ?_, fun p hp => ?_⟩
  · by_cases hk : k = key
    · subst hk
      rw [Shard.erase, AList.lookup_erase, AList.lookup_erase]
    · rw [Shard.erase, AList.lookup_erase_ne hk, AList.lookup_erase_ne hk, h.lookup]
  · obtain ⟨p0, hp0, rfl⟩ := Option.map_eq_some_iff.mp hp
    exact (h.tracked p0 hp0).onErase key

theorem Holds.get (h : s.Holds c) (key : Bytes) :
    (s.get key).1.Holds (c.touch key) ∧ (s.get key).2 = c.lookup key := by
  unfold Shard.get
  rw [h.lookup]
  cases hv : c.lookup key with
  | none =>
      rw [Cache.touch, hv]
      exact ⟨h, rfl⟩
  | some v =>
      refine ⟨⟨fun k => ?_, fun p hp => ?_⟩, rfl⟩
      · rw [Cache.lookup_touch, h.lookup]
      · obtain ⟨p0, hp0, rfl⟩ := Option.map_eq_some_iff.mp hp
        exact (h.tracked p0 hp0).onAccess key

/-- What is erased key by key until no key is left is empty. -/
theorem foldl_erase_keys (keys : List Bytes) (hkeys : ∀ key ∈ c, key ∈ keys) :
    keys.foldl (fun c key => c.erase key) c = ∅ := by
  induction keys generalizing c with
  | nil =>
      refine AList.ext (List.eq_nil_iff_forall_not_mem.mpr fun e he => ?_)
      exact absurd (hkeys e.1 (List.mem_map_of_mem he)) (by simp)
  | cons key keys ih =>
      refine ih fun k hk => ?_
      obtain ⟨hne, hmem⟩ := AList.mem_erase.mp hk
      exact (List.mem_cons.mp (hkeys k hmem)).resolve_left hne

/-- The map and the cache have the same entries. -/
theorem Holds.perm (h : s.Holds c) : s.map.entries.Perm c.entries := by
  rw [List.perm_ext_iff_of_nodup s.map.nodupKeys.nodup c.nodupKeys.nodup]
  intro e
  rw [← AList.mem_lookup_iff, ← AList.mem_lookup_iff, h.lookup]

theorem Holds.clear (h : s.Holds c) : s.clear.Holds ∅ := by
  refine ⟨fun _ => rfl, fun p hp => ?_⟩
  obtain ⟨p0, hp0, rfl⟩ := Option.map_eq_some_iff.mp hp
  have hnone := foldl_erase_keys s.map.keys (c := c) fun key hkey => by
    rw [← AList.mem_keys, ← AList.lookup_isSome, h.lookup]
    exact AList.lookup_isSome.mpr hkey
  rw [← hnone]
  exact (h.tracked p0 hp0).foldl_onErase _

/-- **The loop is `trim`**, and counts the entries that go. -/
theorem evictLoop_trim (budget : Nat) {fuel : Nat} {map : AList fun _ : Bytes => Bytes}
    {policy : LruPolicy} {c : Cache Bytes Bytes} (evictions : Nat)
    (hmap : ∀ key, map.lookup key = c.lookup key) (hpolicy : policy.Tracks entryBytes c)
    (hfuel : c.entries.length ≤ fuel) :
    let r := evictLoop budget fuel map policy evictions
    (∀ key, r.1.lookup key = (c.trim entryBytes budget).lookup key)
      ∧ r.2.1.Tracks entryBytes (c.trim entryBytes budget)
      ∧ r.2.2 + (c.trim entryBytes budget).entries.length = evictions + c.entries.length := by
  induction fuel generalizing map policy c evictions with
  | zero =>
      rw [Cache.trim_of_le (.inr (by omega))]
      exact ⟨hmap, hpolicy, rfl⟩
  | succ fuel ih =>
      rw [evictLoop, hpolicy.bytes, hpolicy.entries_eq]
      split
      · rename_i hover
        obtain ⟨front, ⟨key, v⟩, hback⟩ :=
          List.eq_nil_or_concat c.entries |>.resolve_left (by
            intro hnil
            rw [hnil] at hover
            exact absurd hover.2 (by simp))
        rw [List.concat_eq_append] at hback
        -- one entry always stays
        have hfront : front ≠ [] := by
          rintro rfl
          rw [hback] at hover
          exact absurd hover.2 (by simp)
        have hlen : c.entries.length = front.length + 1 := by rw [hback]; simp
        have herase := Cache.entries_erase_back hback
        rw [hpolicy.evict hback]
        have hmap' : ∀ k, (map.erase key).lookup k = (c.erase key).lookup k := by
          intro k
          by_cases hk : k = key
          · subst hk
            rw [AList.lookup_erase, AList.lookup_erase]
          · rw [AList.lookup_erase_ne hk, AList.lookup_erase_ne hk, hmap]
        obtain ⟨h1, h2, h3⟩ :=
          ih (evictions + 1) hmap' (hpolicy.onErase key) (by rw [herase]; omega)
        rw [Cache.trim_erase_back hback hfront hover.1]
        refine ⟨h1, h2, h3.trans ?_⟩
        rw [herase]
        omega
      · rename_i hwithin
        rw [Cache.trim_of_le (by omega)]
        exact ⟨hmap, hpolicy, rfl⟩

/-- What eviction makes of a cache. -/
def settle (evicting : Bool) (budget : Nat) (c : Cache Bytes Bytes) : Cache Bytes Bytes :=
  if evicting then c.trim entryBytes budget else c

theorem Holds.evictIfNeeded (h : s.Holds c) (budget evictions : Nat) :
    (s.evictIfNeeded budget evictions).1.Holds (settle evicting budget c)
      ∧ (s.evictIfNeeded budget evictions).2 + (settle evicting budget c).entries.length
        = evictions + c.entries.length := by
  unfold Shard.evictIfNeeded
  split
  · rename_i hnone
    have hoff : evicting = false := by rw [← s.wf, hnone]; rfl
    rw [settle, if_neg (by rw [hoff]; simp)]
    exact ⟨h, rfl⟩
  · rename_i policy hsome
    have hon : evicting = true := by rw [← s.wf, hsome]; rfl
    have htracks := h.tracked policy hsome
    have hfuel : c.entries.length ≤ policy.recency.length := by
      rw [← List.length_map Prod.snd, htracks.keys, AList.keys, List.keys, List.length_map]
    obtain ⟨h1, h2, h3⟩ := evictLoop_trim budget evictions h.lookup htracks hfuel
    rw [settle, if_pos hon]
    refine ⟨⟨h1, fun p hp => ?_⟩, h3⟩
    cases hp
    exact h2

/-- The entries of the shard, the most recently used first. -/
def cache (s : Shard evicting) : Cache Bytes Bytes :=
  match s.policy with
  | none => s.map
  | some p => (p.recency.filterMap fun x => Cache.entryAt s.map x.2).toAList

theorem Holds.cache_eq (h : s.Holds c) {p : LruPolicy} (hp : s.policy = some p) : s.cache = c := by
  have hlist : (p.recency.filterMap fun x => Cache.entryAt s.map x.2) = c.entries := by
    have hentry : Cache.entryAt s.map = Cache.entryAt c := by
      funext key
      rw [Cache.entryAt, Cache.entryAt, h.lookup]
    rw [← Cache.filterMap_entryAt, ← (h.tracked p hp).keys, List.filterMap_map, hentry]
    rfl
  unfold Shard.cache
  rw [hp]
  dsimp only
  rw [hlist, Cache.toAList_entries]

/-- A shard that holds some cache holds the one that can be read off it. -/
theorem Holds.cache (h : s.Holds c) : s.Holds s.cache := by
  cases hp : s.policy with
  | none =>
      have hmap : s.cache = s.map := by unfold Shard.cache; rw [hp]
      refine ⟨fun key => by rw [hmap], fun p hsome => ?_⟩
      rw [hp] at hsome
      exact absurd hsome (by simp)
  | some p =>
      rw [h.cache_eq hp]
      exact h

/-- What was written last stays, whatever the budget. -/
theorem lookup_settle_insert (evicting : Bool) (budget : Nat) (c : Cache Bytes Bytes)
    (key value : Bytes) :
    (settle evicting budget (c.insert key value)).lookup key = some value := by
  unfold settle
  split
  · -- the entry at the front is never given up
    refine AList.mem_lookup_iff.mpr ?_
    show _ ∈ Cache.trimmed entryBytes budget (⟨key, value⟩ :: List.kerase key c.entries)
    rw [Cache.trimmed]
    exact List.mem_cons_self ..
  · exact AList.lookup_insert c

theorem lookup_settle {budget : Nat} {key value : Bytes}
    (h : (settle evicting budget c).lookup key = some value) : c.lookup key = some value := by
  unfold settle at h
  split at h
  · exact Cache.lookup_trim h
  · exact h

end Shard

/-! ## The map -/

/-- A cache for every shard. -/
abbrev Caches (cfg : MapConfig) := Fin cfg.shards → Cache Bytes Bytes

namespace Caches

variable {cfg : MapConfig}

/-- What eviction makes of the cache of a shard. -/
def settle (cfg : MapConfig) (c : Cache Bytes Bytes) : Cache Bytes Bytes :=
  Shard.settle cfg.evictionEnabled cfg.shardBudgetBytes c

/-- One shard is brought back into its budget. -/
def evictIfNeeded (cs : Caches cfg) (i : Fin cfg.shards) : Caches cfg :=
  Function.update cs i (settle cfg (cs i))

/-- What is there under a key. -/
def contents (cs : Caches cfg) (key : Bytes) : Option Bytes := (cs (cfg.shardFor key)).lookup key

/-- A key is looked up, and is the most recently used one. -/
def get (cs : Caches cfg) (key : Bytes) : Caches cfg :=
  Function.update cs (cfg.shardFor key) ((cs (cfg.shardFor key)).touch key)

/-- One mutation, without regard to the budget. -/
def applyOne (cs : Caches cfg) (mutation : Mutation) : Caches cfg :=
  let c := cs (cfg.shardFor mutation.key)
  Function.update cs (cfg.shardFor mutation.key)
    (if mutation.erase then c.erase mutation.key else c.insert mutation.key mutation.value)

/-- A key is written, and its shard brought back into its budget. -/
def set (cs : Caches cfg) (key value : Bytes) : Caches cfg :=
  evictIfNeeded (cs.applyOne { key := key, value := value }) (cfg.shardFor key)

/-- A key is taken out. -/
def del (cs : Caches cfg) (key : Bytes) : Caches cfg := cs.applyOne { erase := true, key := key }

/-- Several mutations, and then the budgets of the shards they touched. -/
def applyAtomically (cs : Caches cfg) (mutations : List Mutation) : Caches cfg :=
  (ShardedMap.touched cfg mutations).foldl evictIfNeeded (mutations.foldl applyOne cs)

end Caches

namespace ShardedMap

variable {cfg : MapConfig} {m : ShardedMap cfg} {cs : Caches cfg}

/-- Every shard holds its cache, and every key is in the shard it belongs to. -/
structure Holds (m : ShardedMap cfg) (cs : Caches cfg) : Prop where
  shards : ∀ i, (m.shards i).Holds (cs i)
  home : ∀ i key, key ∈ cs i → cfg.shardFor key = i

theorem holds_init : Holds (init cfg) fun _ => ∅ :=
  ⟨fun _ => Shard.holds_init _, fun _ key hkey => absurd hkey (AList.notMem_empty key)⟩

theorem Holds.contents (h : m.Holds cs) : m.contents = cs.contents :=
  funext fun key => (h.shards _).lookup key

/-- One shard is given another cache. -/
theorem Holds.update (h : m.Holds cs) {i : Fin cfg.shards} {s : Shard cfg.evictionEnabled}
    {c : Cache Bytes Bytes} {evictions : Nat} (hs : s.Holds c)
    (hkeys : ∀ key ∈ c, cfg.shardFor key = i) :
    Holds { shards := Function.update m.shards i s, evictions := evictions }
      (Function.update cs i c) := by
  refine ⟨fun j => ?_, fun j key hkey => ?_⟩
  · by_cases hj : j = i
    · subst hj
      simpa using hs
    · simpa [hj] using h.shards j
  · by_cases hj : j = i
    · subst hj
      rw [Function.update_self] at hkey
      exact hkeys key hkey
    · rw [Function.update_of_ne hj] at hkey
      exact h.home j key hkey

theorem Holds.applyOne (h : m.Holds cs) (mutation : Mutation) :
    (m.applyOne mutation).Holds (cs.applyOne mutation) := by
  refine h.update ?_ fun key hkey => ?_
  · split
    · exact (h.shards _).erase _
    · exact (h.shards _).insert _ _
  · split at hkey
    · exact h.home _ key (AList.mem_erase.mp hkey).2
    · rcases (AList.mem_insert _).mp hkey with rfl | hkey
      · rfl
      · exact h.home _ key hkey

theorem Holds.get (h : m.Holds cs) (key : Bytes) :
    (m.get key).1.Holds (cs.get key) ∧ (m.get key).2 = cs.contents key := by
  obtain ⟨hs, hr⟩ := (h.shards (cfg.shardFor key)).get key
  refine ⟨h.update hs fun k hk => h.home _ k ?_, hr⟩
  rw [← AList.lookup_isSome, Cache.lookup_touch] at hk
  exact AList.lookup_isSome.mp hk

theorem Holds.evictIfNeeded (h : m.Holds cs) (i : Fin cfg.shards) :
    (m.evictIfNeeded i).Holds (cs.evictIfNeeded i)
      ∧ (m.evictIfNeeded i).evictions + (Caches.settle cfg (cs i)).entries.length
        = m.evictions + (cs i).entries.length := by
  obtain ⟨hs, hcount⟩ := (h.shards i).evictIfNeeded cfg.shardBudgetBytes m.evictions
  refine ⟨h.update hs fun k hk => h.home _ k ?_, hcount⟩
  obtain ⟨v, hv⟩ := Option.isSome_iff_exists.mp (AList.lookup_isSome.mpr hk)
  exact AList.lookup_isSome.mp (by rw [Shard.lookup_settle hv]; rfl)

theorem Holds.foldl_applyOne (h : m.Holds cs) (mutations : List Mutation) :
    (mutations.foldl ShardedMap.applyOne m).Holds (mutations.foldl Caches.applyOne cs) := by
  induction mutations generalizing m cs with
  | nil => exact h
  | cons mutation mutations ih => exact ih (h.applyOne mutation)

theorem Holds.foldl_evictIfNeeded (h : m.Holds cs) (is : List (Fin cfg.shards)) :
    (is.foldl ShardedMap.evictIfNeeded m).Holds (is.foldl Caches.evictIfNeeded cs) := by
  induction is generalizing m cs with
  | nil => exact h
  | cons i is ih => exact ih (h.evictIfNeeded i).1

theorem Holds.set (h : m.Holds cs) (key value : Bytes) :
    (m.set key value).Holds (cs.set key value) :=
  ((h.applyOne { key := key, value := value }).evictIfNeeded _).1

theorem Holds.del (h : m.Holds cs) (key : Bytes) : (m.del key).1.Holds (cs.del key) :=
  h.applyOne { erase := true, key := key }

theorem Holds.applyAtomically (h : m.Holds cs) (mutations : List Mutation) :
    (m.applyAtomically mutations).Holds (cs.applyAtomically mutations) :=
  (h.foldl_applyOne mutations).foldl_evictIfNeeded _

theorem Holds.getMany (h : m.Holds cs) (keys : List Bytes) :
    (m.getMany keys).1.Holds (keys.foldl Caches.get cs) := by
  induction keys generalizing m cs with
  | nil => exact h
  | cons key keys ih => exact ih (h.get key).1

theorem Holds.clear (h : m.Holds cs) : m.clear.Holds fun _ => ∅ :=
  ⟨fun i => (h.shards i).clear, fun _ key hkey => absurd hkey (AList.notMem_empty key)⟩

/-- The entries of every shard, the most recently used first. -/
def caches (m : ShardedMap cfg) : Caches cfg := fun i => (m.shards i).cache

theorem Holds.lookup_caches (h : m.Holds cs) (i : Fin cfg.shards) (key : Bytes) :
    (m.caches i).lookup key = (cs i).lookup key :=
  ((h.shards i).cache.lookup key).symm.trans ((h.shards i).lookup key)

theorem Holds.caches (h : m.Holds cs) : m.Holds m.caches := by
  refine ⟨fun i => (h.shards i).cache, fun i key hkey => h.home i key ?_⟩
  rw [← AList.lookup_isSome, h.lookup_caches] at hkey
  exact AList.lookup_isSome.mp hkey

/-! ### Snapshots -/

theorem Holds.mem_snapshot (h : m.Holds cs) (key value : Bytes) :
    (key, value) ∈ m.snapshot ↔ m.contents key = some value := by
  have hshard : ∀ i, (key, value) ∈ ((m.shards i).map.entries.map fun entry => (entry.1, entry.2))
      ↔ (m.shards i).map.lookup key = some value := by
    intro i
    rw [show ((m.shards i).map.lookup key = some value) ↔ value ∈ (m.shards i).map.lookup key from
      Iff.rfl, AList.mem_lookup_iff, List.mem_map]
    constructor
    · rintro ⟨e, he, heq⟩
      cases heq
      exact he
    · exact fun he => ⟨_, he, rfl⟩
  rw [snapshot, List.mem_flatMap]
  constructor
  · rintro ⟨i, _, hin⟩
    have hlookup := (hshard i).mp hin
    have hmem : key ∈ cs i := AList.lookup_isSome.mp (by
      rw [← (h.shards i).lookup, hlookup]; rfl)
    rw [ShardedMap.contents, h.home i key hmem]
    exact hlookup
  · exact fun hlookup => ⟨_, List.mem_finRange _, (hshard _).mpr hlookup⟩

theorem length_snapshot (m : ShardedMap cfg) : m.snapshot.length = m.size := by
  rw [snapshot, size, List.length_flatMap]
  simp only [List.length_map]

/-- A snapshot has every key once. -/
theorem Holds.nodup_snapshot (h : m.Holds cs) : (m.snapshot.map Prod.fst).Nodup := by
  have hkeys : m.snapshot.map Prod.fst
      = (List.finRange cfg.shards).flatMap fun i => (m.shards i).map.keys := by
    rw [snapshot, List.map_flatMap]
    congr 1
    funext i
    rw [List.map_map]
    rfl
  rw [hkeys, List.nodup_flatMap]
  refine ⟨fun i _ => AList.keys_nodup _, (List.nodup_finRange _).imp fun {i j} hij => ?_⟩
  intro key hi hj
  have hhome : ∀ i, key ∈ (m.shards i).map.keys → cfg.shardFor key = i := by
    intro i hkey
    rw [← AList.mem_keys, ← AList.lookup_isSome, (h.shards i).lookup] at hkey
    exact h.home i key (AList.lookup_isSome.mp hkey)
  exact hij ((hhome i hi).symm.trans (hhome j hj))

end ShardedMap

/-! ## The budget -/

namespace Caches

variable {cfg : MapConfig} {cs : Caches cfg}

/-- There is nothing to evict. -/
def InBudget (cfg : MapConfig) (c : Cache Bytes Bytes) : Prop :=
  cfg.evictionEnabled = true →
    Cache.weight entryBytes c ≤ cfg.shardBudgetBytes ∨ c.entries.length ≤ 1

theorem inBudget_settle (c : Cache Bytes Bytes) : InBudget cfg (settle cfg c) := by
  intro hon
  rw [settle, Shard.settle, if_pos hon]
  exact (Cache.weight_trim entryBytes _ c).imp id fun h => Nat.le_of_eq h

theorem settle_of_inBudget {c : Cache Bytes Bytes} (h : InBudget cfg c) : settle cfg c = c := by
  unfold settle Shard.settle
  split
  · rename_i hon
    exact Cache.trim_of_le (h hon)
  · rfl

/-- Fewer entries are in the budget too. -/
theorem InBudget.mono {c c' : Cache Bytes Bytes} (h : InBudget cfg c)
    (hle : Within (fun key => c'.lookup key) fun key => c.lookup key) : InBudget cfg c' := by
  have hsub : c'.entries.Subperm c.entries := by
    refine List.subperm_of_subset c'.nodupKeys.nodup fun e he => ?_
    exact AList.mem_lookup_iff.mp (hle e.1 e.2 (AList.mem_lookup_iff.mpr he))
  obtain ⟨es, hperm, hes⟩ := hsub
  intro hon
  refine (h hon).imp (fun hw => ?_) fun hl => ?_
  · rw [Cache.weight, ← Cache.weightOf_perm _ hperm]
    exact (Cache.weightOf_sublist _ hes).trans hw
  · rw [← hperm.length_eq]
    exact hes.length_le.trans hl

/-- Every shard is in its budget. -/
def Bounded (cs : Caches cfg) : Prop := ∀ i, InBudget cfg (cs i)

theorem bounded_empty : Bounded (fun _ => ∅ : Caches cfg) := fun _ _ => .inr (Nat.zero_le _)

theorem Bounded.update (h : cs.Bounded) {i : Fin cfg.shards} {c : Cache Bytes Bytes}
    (hc : InBudget cfg c) : Bounded (Function.update cs i c) := by
  intro j
  by_cases hj : j = i
  · subst hj
    rwa [Function.update_self]
  · rw [Function.update_of_ne hj]
    exact h j

theorem Bounded.caches {m : ShardedMap cfg} (hm : m.Holds cs) (h : cs.Bounded) : m.caches.Bounded :=
  fun i => (h i).mono fun key _ hk => (hm.lookup_caches i key).symm.trans hk

theorem Bounded.get (h : cs.Bounded) (key : Bytes) : (cs.get key).Bounded :=
  h.update ((h _).mono fun k _ hk => (Cache.lookup_touch key k _).symm.trans hk)

theorem Bounded.getMany (h : cs.Bounded) (keys : List Bytes) :
    (keys.foldl Caches.get cs).Bounded := by
  induction keys generalizing cs with
  | nil => exact h
  | cons key keys ih => exact ih (h.get key)

theorem Bounded.del (h : cs.Bounded) (key : Bytes) : (cs.del key).Bounded := by
  refine h.update ((h (cfg.shardFor key)).mono fun k v hk => ?_)
  dsimp only at hk
  rw [if_pos rfl] at hk
  by_cases hkey : k = key
  · subst hkey
    rw [AList.lookup_erase] at hk
    exact absurd hk (by simp)
  · rwa [AList.lookup_erase_ne hkey] at hk

/-- Evicting from the shards of a list leaves the others alone. -/
theorem foldl_evictIfNeeded (is : List (Fin cfg.shards)) (i : Fin cfg.shards) :
    is.foldl evictIfNeeded cs i = if i ∈ is then settle cfg (cs i) else cs i := by
  induction is generalizing cs with
  | nil => simp
  | cons j is ih =>
      rw [List.foldl_cons, ih]
      by_cases hij : i = j
      · subst hij
        rw [evictIfNeeded, Function.update_self, if_pos (List.mem_cons_self ..)]
        -- a shard that was evicted from once is not evicted from again
        split
        · exact settle_of_inBudget (inBudget_settle _)
        · rfl
      · rw [evictIfNeeded, Function.update_of_ne hij]
        simp [hij]

theorem foldl_applyOne_of_not_mem {mutations : List Mutation} {i : Fin cfg.shards}
    (h : i ∉ mutations.map fun mutation => cfg.shardFor mutation.key) :
    mutations.foldl applyOne cs i = cs i := by
  induction mutations generalizing cs with
  | nil => rfl
  | cons mutation mutations ih =>
      rw [List.map_cons, List.mem_cons, not_or] at h
      rw [List.foldl_cons, ih h.2, applyOne, Function.update_of_ne h.1]

/-- The shards that a list of mutations does not touch have nothing to evict. -/
theorem Bounded.applyAtomically_eq (h : cs.Bounded) (mutations : List Mutation) :
    cs.applyAtomically mutations = fun i => settle cfg (mutations.foldl applyOne cs i) := by
  funext i
  rw [applyAtomically, foldl_evictIfNeeded]
  split
  · rfl
  · rename_i hi
    rw [foldl_applyOne_of_not_mem (mt ShardedMap.mem_touched.mpr hi), settle_of_inBudget (h i)]

theorem Bounded.set_eq (h : cs.Bounded) (key value : Bytes) :
    cs.set key value = fun i => settle cfg (cs.applyOne { key := key, value := value } i) := by
  funext i
  rw [set, evictIfNeeded]
  by_cases hi : i = cfg.shardFor key
  · subst hi
    rw [Function.update_self]
  · rw [Function.update_of_ne hi, applyOne, Function.update_of_ne hi, settle_of_inBudget (h i)]

theorem Bounded.applyAtomically (h : cs.Bounded) (mutations : List Mutation) :
    (cs.applyAtomically mutations).Bounded := by
  rw [h.applyAtomically_eq]
  exact fun i => inBudget_settle _

theorem Bounded.set (h : cs.Bounded) (key value : Bytes) : (cs.set key value).Bounded := by
  rw [h.set_eq]
  exact fun i => inBudget_settle _

end Caches

/-- Every shard holds a cache that is within its share of the budget. -/
def CachesInBudget {cfg : MapConfig} (m : ShardedMap cfg) : Prop :=
  ∃ cs : Caches cfg, m.Holds cs ∧ cs.Bounded

theorem cachesInBudget_init {cfg : MapConfig} : CachesInBudget (ShardedMap.init cfg) :=
  ⟨_, ShardedMap.holds_init, Caches.bounded_empty⟩

end KvStore
