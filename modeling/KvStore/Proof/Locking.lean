import KvStore.Store.Locking
import Mathlib.Data.Fintype.EquivFin

/-!
# Multi-shard calls are atomic, and nobody waits forever

Every call of the map takes the locks of its shards in ascending order and keeps them to
its end. So the general result about such calls applies: their results are those of the
same calls made one after another, and as long as a call has not returned, somebody can
go on.

What is left to show is that the code of each call is of that form, and that, run alone,
it does what the call does in the model of the map that everything else is about.
-/

namespace KvStore.Locking

open Lib TwoPhase

variable {cfg : MapConfig}

/-! ## The order of the locks -/

theorem pairwise_lt_dedup {n : Nat} (is : List (Fin n)) :
    (is.insertionSort (· ≤ ·)).dedup.Pairwise (· < ·) := by
  have hle : (is.insertionSort (· ≤ ·)).dedup.Pairwise (· ≤ ·) :=
    (List.pairwise_insertionSort (· ≤ ·) is).sublist (List.dedup_sublist _)
  exact hle.imp₂ (fun _ _ hle hne => lt_of_le_of_ne hle hne) (List.nodup_dedup _)

theorem mem_touchedKeys {keys : List Bytes} {i : Fin cfg.shards} :
    i ∈ touchedKeys cfg keys ↔ i ∈ keys.map cfg.shardFor := ShardedMap.mem_dedup_insertionSort

section WellFormed

variable {held : Locks (Fin cfg.shards)} {i : Fin cfg.shards} {next : Code cfg}

theorem wellFormed_evictRounds (hi : held i = some .exclusive) (hnext : next.WellFormed held)
    (fuel : Nat) : (evictRounds i next fuel).WellFormed held := by
  induction fuel with
  | zero => exact hnext
  | succ fuel ih =>
      refine .access (.inl hi) fun s => ?_
      split
      · exact ih
      · exact hnext

theorem wellFormed_evictIfNeeded (hi : held i = some .exclusive) (hnext : next.WellFormed held) :
    (evictIfNeeded i next).WellFormed held := by
  refine .access (.inl hi) fun s => ?_
  split
  · exact hnext
  · exact wellFormed_evictRounds hi hnext _

/-- Without a policy there is nobody to be told of a read. -/
theorem get_fst_of_off {s : Shard cfg.evictionEnabled} (hoff : cfg.evictionEnabled = false)
    (key : Bytes) : (s.get key).1 = s := by
  obtain ⟨map, policy, wf⟩ := s
  have hnone : policy = none := by
    rw [hoff] at wf
    exact Option.not_isSome_iff_eq_none.mp (by rw [wf]; simp)
  subst hnone
  unfold Shard.get
  split
  · rfl
  · rfl

theorem wellFormed_lookup {key : Bytes} {next : Option Bytes → Code cfg}
    (hkey : held (cfg.shardFor key) = some (readMode cfg)) (hnext : ∀ v, (next v).WellFormed held) :
    (lookup key next).WellFormed held := by
  refine .access ?_ fun s => hnext _
  unfold readMode at hkey
  split at hkey
  · exact .inl hkey
  · rename_i hoff
    exact .inr ⟨hkey, fun s => get_fst_of_off (Bool.eq_false_iff.mpr hoff) key⟩

theorem wellFormed_readAll {keys : List Bytes} (results : List (Option Bytes))
    (hkeys : ∀ key ∈ keys, held (cfg.shardFor key) = some (readMode cfg)) :
    (readAll keys results).WellFormed held := by
  induction keys generalizing results with
  | nil => exact .done
  | cons key keys ih =>
      refine wellFormed_lookup (hkeys key (List.mem_cons_self ..)) fun value => ?_
      exact ih _ fun k hk => hkeys k (List.mem_cons_of_mem _ hk)

theorem wellFormed_applyAll {mutations : List Mutation} (hnext : next.WellFormed held)
    (hkeys : ∀ mutation ∈ mutations, held (cfg.shardFor mutation.key) = some .exclusive) :
    (applyAll next mutations).WellFormed held := by
  induction mutations with
  | nil => exact hnext
  | cons mutation mutations ih =>
      refine .access (.inl (hkeys mutation (List.mem_cons_self ..))) fun _ => ?_
      exact ih fun m hm => hkeys m (List.mem_cons_of_mem _ hm)

/-- Something done to one shard after another, all of them locked. -/
theorem wellFormed_foldr {f : Fin cfg.shards → Code cfg → Code cfg} {shards : List (Fin cfg.shards)}
    (hf : ∀ i next, held i = some .exclusive → next.WellFormed held → (f i next).WellFormed held)
    (hshards : ∀ i ∈ shards, held i = some .exclusive) (hnext : next.WellFormed held) :
    (shards.foldr f next).WellFormed held := by
  induction shards with
  | nil => exact hnext
  | cons i shards ih =>
      refine hf i _ (hshards i (List.mem_cons_self ..)) ?_
      exact ih fun j hj => hshards j (List.mem_cons_of_mem _ hj)

theorem wellFormed_clearShard (hi : held i = some .exclusive) (hnext : next.WellFormed held) :
    (clearShard i next).WellFormed held := by
  refine .access (.inl hi) fun s => ?_
  generalize (if s.policy.isSome then s.map.keys else []) = keys
  induction keys with
  | nil => exact .access (.inl hi) fun _ => hnext
  | cons key keys ih => exact .access (.inl hi) fun _ => ih

theorem wellFormed_sizeFrom {shards : List (Fin cfg.shards)} (total : Nat)
    (hsorted : shards.Pairwise (· < ·)) (hbefore : ∀ j, held j ≠ none → ∀ i ∈ shards, j < i) :
    (sizeFrom shards total).WellFormed held := by
  induction shards generalizing held total with
  | nil => exact .done
  | cons i shards ih =>
      obtain ⟨hi, hsorted⟩ := List.pairwise_cons.mp hsorted
      refine .acquire (fun j hj => hbefore j hj i (List.mem_cons_self ..)) ?_
      refine .access (.inr ⟨Function.update_self .., fun _ => rfl⟩) fun s => ?_
      exact ih _ hsorted (Locks.before_update hi hbefore)

end WellFormed

theorem wellFormed_code (cfg : MapConfig) (call : Call) :
    (code cfg call).WellFormed fun _ => none := by
  have hfirst {i : Fin cfg.shards} {mode : Mode} {next : Code cfg}
      (hnext : next.WellFormed (Function.update (fun _ => none) i (some mode))) :
      (Prog.acquire i mode next).WellFormed fun _ => none := .acquire (by simp) hnext
  cases call with
  | set key value =>
      refine hfirst (.access (.inl (Function.update_self ..)) fun _ => ?_)
      exact wellFormed_evictIfNeeded (Function.update_self ..) .done
  | del key => exact hfirst (.access (.inl (Function.update_self ..)) fun _ => .done)
  | get key => exact hfirst (wellFormed_lookup (Function.update_self ..) fun _ => .done)
  | getMany keys =>
      show (getManyCode keys).WellFormed _
      unfold getManyCode
      split
      · exact .done
      · -- the shards of all keys are locked first, in ascending order
        refine Prog.wellFormed_lockAll (pairwise_lt_dedup _) (by simp) ?_
        refine wellFormed_readAll _ fun key hkey => if_pos ?_
        exact mem_touchedKeys.mpr (List.mem_map_of_mem hkey)
  | applyAtomically mutations =>
      show (applyAtomicallyCode mutations).WellFormed _
      unfold applyAtomicallyCode
      split
      · exact .done
      · refine Prog.wellFormed_lockAll (pairwise_lt_dedup _) (by simp) ?_
        refine wellFormed_applyAll ?_ fun mutation hm => if_pos ?_
        · exact wellFormed_foldr (fun _ _ hi hnext => wellFormed_evictIfNeeded hi hnext)
            (fun i hi => if_pos hi) .done
        · exact ShardedMap.mem_touched.mpr (List.mem_map_of_mem hm)
  | size => exact wellFormed_sizeFrom 0 (List.pairwise_lt_finRange _) (by simp)
  | clear =>
      refine Prog.wellFormed_lockAll (List.pairwise_lt_finRange _) (by simp) ?_
      exact wellFormed_foldr (fun _ _ hi hnext => wellFormed_clearShard hi hnext)
        (fun i hi => if_pos hi) .done

/-! ## What a call does, alone -/

/-- The rounds of `evictIfNeeded`, on one shard. -/
def rounds {evicting : Bool} (budget : Nat) : Nat → Shard evicting → Shard evicting
  | 0, s => s
  | fuel + 1, s =>
      match s.evictOne budget with
      | none => s
      | some s' => rounds budget fuel s'

theorem rounds_eq {evicting : Bool} (budget evictions fuel : Nat) (s : Shard evicting)
    (policy : LruPolicy) (hpolicy : s.policy = some policy) :
    (rounds budget fuel s).map = (Shard.evictLoop budget fuel s.map policy evictions).1
      ∧ (rounds budget fuel s).policy
        = some (Shard.evictLoop budget fuel s.map policy evictions).2.1 := by
  induction fuel generalizing s policy evictions with
  | zero => exact ⟨rfl, hpolicy⟩
  | succ fuel ih =>
      obtain ⟨map, _, wf⟩ := s
      subst hpolicy
      rw [rounds, Shard.evictLoop]
      by_cases hover : policy.bytes > budget ∧ policy.entries > 1
      · rw [if_pos hover]
        cases hevict : policy.evict with
        -- nothing to evict, though there are entries: both stop
        | none =>
            have hstop : Shard.evictOne ⟨map, some policy, wf⟩ budget = none := by
              simp [Shard.evictOne, hover, hevict]
            rw [hstop]
            exact ⟨rfl, rfl⟩
        | some taken =>
            obtain ⟨victim, policy'⟩ := taken
            have hround : Shard.evictOne ⟨map, some policy, wf⟩ budget
                = some ⟨map.erase victim, some policy', wf⟩ := by
              simp [Shard.evictOne, hover, hevict]
            rw [hround]
            exact ih _ _ policy' rfl
      · have hstop : Shard.evictOne ⟨map, some policy, wf⟩ budget = none := by
          simp only [Shard.evictOne, if_neg hover]
        rw [if_neg hover, hstop]
        exact ⟨rfl, rfl⟩

theorem rounds_evictIfNeeded {evicting : Bool} {s : Shard evicting} {policy : LruPolicy}
    (hpolicy : s.policy = some policy) (budget evictions : Nat) :
    rounds budget policy.recency.length s = (s.evictIfNeeded budget evictions).1 := by
  obtain ⟨map, _, wf⟩ := s
  subst hpolicy
  obtain ⟨hmap, hpolicy⟩ := rounds_eq budget evictions policy.recency.length ⟨map, _, wf⟩ policy rfl
  exact Shard.ext hmap hpolicy

section Eval

variable {i : Fin cfg.shards} {next : Code cfg} (cells : Fin cfg.shards → Shard cfg.evictionEnabled)

theorem eval_evictRounds (fuel : Nat) :
    (evictRounds i next fuel).eval cells
      = next.eval (Function.update cells i (rounds cfg.shardBudgetBytes fuel (cells i))) := by
  induction fuel generalizing cells with
  | zero => rw [evictRounds, rounds, Function.update_eq_self]
  | succ fuel ih =>
      rw [evictRounds, Prog.eval, rounds]
      cases (cells i).evictOne cfg.shardBudgetBytes with
      | none => rfl
      | some s =>
          rw [if_pos (by rfl), ih, Function.update_self, Function.update_idem]
          rfl

theorem eval_evictIfNeeded (m : ShardedMap cfg) (i : Fin cfg.shards) :
    (evictIfNeeded i next).eval m.shards = next.eval (m.evictIfNeeded i).shards := by
  rw [evictIfNeeded, Prog.eval, id, Function.update_eq_self]
  unfold ShardedMap.evictIfNeeded
  dsimp only
  cases hpolicy : (m.shards i).policy with
  | none =>
      have hsame : ((m.shards i).evictIfNeeded cfg.shardBudgetBytes m.evictions).1
        = m.shards i := by
        unfold Shard.evictIfNeeded
        split
        · rfl
        · rename_i hsome
          rw [hpolicy] at hsome
          cases hsome
      rw [hsame, Function.update_eq_self]
  | some policy =>
      dsimp only
      rw [eval_evictRounds, rounds_evictIfNeeded hpolicy]

theorem eval_evictAll (m : ShardedMap cfg) (shards : List (Fin cfg.shards)) :
    (shards.foldr evictIfNeeded next).eval m.shards
      = next.eval (shards.foldl ShardedMap.evictIfNeeded m).shards := by
  induction shards generalizing m with
  | nil => rfl
  | cons i shards ih => rw [List.foldr_cons, List.foldl_cons, eval_evictIfNeeded, ih]

theorem eval_applyAll (m : ShardedMap cfg) (mutations : List Mutation) :
    (applyAll next mutations).eval m.shards
      = next.eval (mutations.foldl ShardedMap.applyOne m).shards := by
  induction mutations generalizing m with
  | nil => rfl
  | cons mutation mutations ih => exact ih (m.applyOne mutation)

theorem eval_readAll (m : ShardedMap cfg) (keys : List Bytes) (results : List (Option Bytes)) :
    (readAll keys results).eval m.shards
      = ((m.getMany keys).1.shards, .values (results ++ (m.getMany keys).2)) := by
  induction keys generalizing m results with
  | nil => rw [readAll, Prog.eval, ShardedMap.getMany, List.append_nil]
  | cons key keys ih =>
      have hstep : (readAll (key :: keys) results).eval m.shards
          = (readAll keys (results ++ [(m.get key).2])).eval (m.get key).1.shards := rfl
      rw [hstep, ih, ShardedMap.getMany, List.append_assoc]
      rfl

theorem eval_sizeFrom (shards : List (Fin cfg.shards)) (total : Nat) :
    (sizeFrom shards total).eval cells
      = (cells, .count (total + (shards.map fun i => (cells i).map.entries.length).sum)) := by
  induction shards generalizing total with
  | nil => rfl
  | cons i shards ih =>
      rw [sizeFrom, Prog.eval, Prog.eval, id, Function.update_eq_self, ih, List.map_cons,
        List.sum_cons, Nat.add_assoc]

/-- Forgetting one entry after another leaves the map as it was. -/
theorem eval_forgetAll (keys : List Bytes) :
    (keys.foldr (fun key next => Prog.access i (·.forget key) fun _ => next) next).eval cells
      = next.eval (Function.update cells i (keys.foldl Shard.forget (cells i))) := by
  induction keys generalizing cells with
  | nil => rw [List.foldl_nil, Function.update_eq_self]; rfl
  | cons key keys ih =>
      rw [List.foldr_cons, Prog.eval, ih, Function.update_self, Function.update_idem,
        List.foldl_cons]

theorem foldl_forget {evicting : Bool} (s : Shard evicting) (keys : List Bytes) :
    (keys.foldl Shard.forget s).map = s.map
      ∧ (keys.foldl Shard.forget s).policy = s.policy.map fun p =>
        keys.foldl LruPolicy.onErase p := by
  induction keys generalizing s with
  | nil => exact ⟨rfl, by simp⟩
  | cons key keys ih =>
      obtain ⟨hmap, hpolicy⟩ := ih (s.forget key)
      refine ⟨hmap, hpolicy.trans ?_⟩
      rw [Shard.forget, Option.map_map]
      rfl

theorem emptied_forgetAll {evicting : Bool} (s : Shard evicting) :
    ((if s.policy.isSome then s.map.keys else []).foldl Shard.forget s).emptied = s.clear := by
  refine Shard.ext rfl ?_
  cases hpolicy : s.policy with
  | none => simp [Shard.emptied, Shard.clear, hpolicy]
  | some policy => exact (foldl_forget s _).2

theorem eval_clearShard :
    (clearShard i next).eval cells = next.eval (Function.update cells i (cells i).clear) := by
  rw [clearShard, Prog.eval, id, Function.update_eq_self, eval_forgetAll, Prog.eval,
    Function.update_self, Function.update_idem, emptied_forgetAll]

theorem eval_clearAll {shards : List (Fin cfg.shards)} (hnodup : shards.Nodup) :
    (shards.foldr clearShard next).eval cells
      = next.eval fun i => if i ∈ shards then (cells i).clear else cells i := by
  induction shards generalizing cells with
  | nil => simp
  | cons i shards ih =>
      obtain ⟨hi, hnodup⟩ := List.nodup_cons.mp hnodup
      rw [List.foldr_cons, eval_clearShard, ih _ hnodup]
      congr 1
      funext j
      by_cases hj : j = i
      · subst hj
        simp [hi]
      · simp [hj]

end Eval

/-- A call as the model of the map has it: in one go. -/
def Call.run (m : ShardedMap cfg) : Call → ShardedMap cfg × Result
  | .set key value => (m.set key value, .nothing)
  | .del key => ((m.del key).1, .removed (m.del key).2)
  | .get key => ((m.get key).1, .value (m.get key).2)
  | .getMany keys => ((m.getMany keys).1, .values (m.getMany keys).2)
  | .applyAtomically mutations => (m.applyAtomically mutations, .nothing)
  | .size => (m, .count m.size)
  | .clear => (m.clear, .nothing)

theorem eval_code (m : ShardedMap cfg) (call : Call) :
    (code cfg call).eval m.shards = ((call.run m).1.shards, (call.run m).2) := by
  cases call with
  | set key value =>
      exact eval_evictIfNeeded
        { m with
          shards := Function.update m.shards (cfg.shardFor key)
            ((m.shards (cfg.shardFor key)).insert key value) } (cfg.shardFor key)
  | del key => rfl
  | get key => rfl
  | getMany keys =>
      show (getManyCode keys).eval m.shards = _
      unfold getManyCode
      split
      · rename_i hnil
        subst hnil
        rfl
      · rw [Prog.eval_lockAll, eval_readAll, List.nil_append]
        rfl
  | applyAtomically mutations =>
      show (applyAtomicallyCode mutations).eval m.shards = _
      unfold applyAtomicallyCode
      split
      · rename_i hnil
        subst hnil
        rfl
      · rw [Prog.eval_lockAll, eval_applyAll, eval_evictAll]
        rfl
  -- one shard at a time, so alone it is the sum of all
  | size =>
      show (sizeFrom _ 0).eval m.shards = _
      rw [eval_sizeFrom, Nat.zero_add]
      rfl
  | clear =>
      show clearCode.eval m.shards = _
      rw [clearCode, Prog.eval_lockAll, eval_clearAll _ (List.nodup_finRange _)]
      simp only [List.mem_finRange, if_true]
      rfl

/-! ## Every run -/

variable {τ : Type}

/-- Each call of the list has the result that it has on the map left by those before it. -/
def Serially : ShardedMap cfg → List (τ × Call × Result) → ShardedMap cfg → Prop
  | m, [], m' => m' = m
  | m, (_, call, result) :: history, m' =>
      (call.run m).2 = result ∧ Serially (call.run m).1 history m'

theorem serially_of_replays {m : ShardedMap cfg} {history : List (τ × Call × Result)}
    {cells : Fin cfg.shards → Shard cfg.evictionEnabled}
    (h : Replays (code cfg) m.shards history cells) :
    ∃ m', Serially m history m' ∧ cells = m'.shards := by
  induction history generalizing m with
  | nil => exact ⟨m, rfl, h⟩
  | cons entry history ih =>
      obtain ⟨t, call, result⟩ := entry
      obtain ⟨hresult, hrest⟩ := h
      rw [eval_code] at hresult hrest
      obtain ⟨m', hserial, hcells⟩ := ih hrest
      exact ⟨m', ⟨hresult, hserial⟩, hcells⟩

variable [Fintype τ] [DecidableEq τ]

/--
**Atomic, and no deadlock.** Whatever threads do to a map and however their steps are
interleaved: there is one order of the calls that have come to their ends in which, made one
after another, they have the results that the threads were told, or are about to be told, and
leave the map that is there when nobody is at work. And while somebody is at work, a step can
be made that is not a new call.
-/
theorem atomic_without_deadlock (m : ShardedMap cfg) {s : State τ Call (Fin cfg.shards) _ Result}
    (h : (system (code cfg) m.shards).Reachable s) :
    (∃ history pending m', Serially m history m' ∧ history.Perm (s.returned ++ pending)
        ∧ AboutToReturn s pending
        ∧ ((∀ t, s.threads t = none) → s.returned.Perm history ∧ s.cells = m'.shards))
      ∧ ∀ t thread, s.threads t = some thread →
        ∃ a, (∀ u call, a ≠ .start u call) ∧ (step (code cfg) s a).isSome = true := by
  have hserializes := serializes_reachable (wellFormed_code cfg) h
  refine ⟨?_, fun t thread ht => progress hserializes.coherent ht⟩
  obtain ⟨m', hserial, hcells⟩ := serially_of_replays hserializes.replays
  obtain ⟨pending, hperm, hpending⟩ := hserializes.returns
  refine ⟨s.history, pending, m', hserial, hperm, hpending, fun hquiet => ⟨?_, ?_⟩⟩
  · have hnone : pending = [] := by
      refine List.eq_nil_iff_forall_not_mem.mpr fun entry hmem => ?_
      obtain ⟨held, ht⟩ := (hpending.2 entry.1 entry.2.1 entry.2.2).mp hmem
      rw [hquiet] at ht
      exact absurd ht (by simp)
    rw [hnone, List.append_nil] at hperm
    exact hperm.symm
  · rw [hserializes.coherent.cells_eq hquiet, hcells]

/-- Two shards; the first byte of a key says in which it is. -/
def twoShards : MapConfig := { shardCount := 2, hash := fun key => ((key.headD 0).toNat).toUInt64 }

/--
A pair is written while one reader has its first lock already. Then another reader comes,
and has to wait with the pair half written.
-/
def overlapping {n : Nat} (t u v : Fin n) : List (Act (Fin n) Call (Fin twoShards.shards)) :=
  let low := twoShards.shardFor [0]
  let high := twoShards.shardFor [1]
  [.start t (.applyAtomically [⟨false, [0], [7]⟩, ⟨false, [1], [8]⟩]),
    .start u (.getMany [[1], [0]]),
    .step u, .step u, .step u, .step u, .step u, .release u low, .step t, .release u high,
    .finish u, .step t, .start v .size, .step t]

theorem atomic_without_deadlock_overlapping :
    ∃ s : State (Fin 3) Call (Fin twoShards.shards) _ Result,
      (system (code twoShards) (ShardedMap.init twoShards).shards).Reachable s
        ∧ s.returned = [(1, .getMany [[1], [0]], .values [none, none])]
        ∧ (s.threads 0).isSome = true ∧ step (code twoShards) s (.step 2) = none
        ∧ (∃ history pending m', Serially (ShardedMap.init twoShards) history m'
          ∧ history.Perm (s.returned ++ pending) ∧ AboutToReturn s pending)
        ∧ ∃ a, (∀ u call, a ≠ .start u call) ∧ (step (code twoShards) s a).isSome = true := by
  obtain ⟨s, hreach, hreturned, hbusy, hwaits⟩ := System.exists_reachableBy
    (p := fun s : State (Fin 3) Call (Fin twoShards.shards) _ Result =>
      s.returned = [(1, .getMany [[1], [0]], .values [none, none])]
        ∧ (s.threads 0).isSome = true ∧ (step (code twoShards) s (.step 2)).isNone = true)
    (show (system (code twoShards) (ShardedMap.init twoShards).shards).Reachable _ from .init rfl)
    (overlapping 0 1 2) (by decide +kernel) (by decide +kernel)
  obtain ⟨thread, hthread⟩ := Option.isSome_iff_exists.mp hbusy
  obtain ⟨⟨history, pending, m', hserial, hperm, hpending, -⟩, hgo⟩ :=
    atomic_without_deadlock (ShardedMap.init twoShards) hreach
  exact ⟨s, hreach, hreturned, hbusy, Option.isNone_iff_eq_none.mp hwaits,
    ⟨history, pending, m', hserial, hperm, hpending⟩, hgo 0 thread hthread⟩

end KvStore.Locking
