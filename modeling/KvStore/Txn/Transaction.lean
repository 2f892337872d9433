import KvStore.Store.Store

/-!
# Transactions

`src/txn/transaction.cpp`. A transaction keeps its mutations in the order they were
made, and for every key the position of the last one. The two never disagree: that
is a field of the structure, so `mutations_[it->second]` needs no check here either.

What a read inside a transaction finds is what the mutations, applied to the store
as it is now, would put there.
-/

namespace KvStore.Txn

open Lib Wal

/-- What a transaction has yet to do, and where the last mutation of each key is. -/
structure Transaction where
  id : UInt64
  mutations : List Mutation := []
  latest : AList (fun _ : Bytes => Nat) := ∅
  active : Bool := true
  /-- `latest` knows the position of the last mutation of every key. -/
  indexed : ∀ key, (latest.lookup key).map (mutations[·]?)
    = (mutations.reverse.find? fun mutation => mutation.key = key).map some := by simp

namespace Transaction

variable {cfg : StoreConfig}

/-- The constructor. -/
def make (st : Store cfg) : Store cfg × Transaction :=
  let r := st.nextTransactionId
  (r.1, { id := r.2 })

/-- `mutations_.push_back(mutation)`, and `latest_` told. -/
def push (t : Transaction) (mutation : Mutation) : Transaction :=
  { t with
    mutations := t.mutations ++ [mutation]
    latest := t.latest.insert mutation.key t.mutations.length
    indexed := by
      intro key
      rw [List.reverse_append, List.reverse_singleton, List.singleton_append, List.find?_cons]
      by_cases hkey : mutation.key = key
      · subst hkey
        simp
      · have hold := t.indexed key
        rw [AList.lookup_insert_ne (Ne.symm hkey)]
        simp only [hkey, decide_false]
        rw [← hold]
        cases hi : t.latest.lookup key with
        | none => rfl
        | some i =>
            -- what had a position keeps it
            rw [hi, Option.map_some] at hold
            obtain ⟨last, -, hlast⟩ := Option.map_eq_some_iff.mp hold.symm
            obtain ⟨hlt, -⟩ := List.getElem?_eq_some_iff.mp hlast.symm
            rw [Option.map_some, Option.map_some, List.getElem?_append_left hlt] }

/-- `Transaction::set`. -/
def set (t : Transaction) (key value : Bytes) : Transaction :=
  if t.active then t.push { key := key, value := value } else t

/-- `Transaction::del`. -/
def del (t : Transaction) (key : Bytes) : Transaction :=
  if t.active then t.push { erase := true, key := key } else t

theorem lt_of_lookup (t : Transaction) {key : Bytes} {i : Nat} (h : t.latest.lookup key = some i) :
    i < t.mutations.length := by
  have hlast := t.indexed key
  rw [h, Option.map_some] at hlast
  obtain ⟨last, -, hlast⟩ := Option.map_eq_some_iff.mp hlast.symm
  exact (List.getElem?_eq_some_iff.mp hlast.symm).1

/-- `Transaction::get`: its own mutations come before the store. -/
def get (t : Transaction) (st : Store cfg) (key : Bytes) : Store cfg × Option Bytes :=
  match h : t.latest.lookup key with
  | some i =>
      let mutation := t.mutations.get ⟨i, t.lt_of_lookup h⟩
      (st, if mutation.erase then none else some mutation.value)
  | none => st.get key

/-- Without its mutations, and of no further use. -/
def finished (t : Transaction) : Transaction := { id := t.id, active := false }

/-- `Transaction::commit`. -/
def commit (t : Transaction) (st : Store cfg) (io : Io) : Store cfg × Transaction × Bool :=
  if t.active then
    match st.commitTransaction t.id t.mutations io with
    | (st, false) => (st, t, false)
    | (st, true) => (st, t.finished, true)
  else (st, t, false)

/-- `Transaction::rollback`. -/
def rollback (t : Transaction) (st : Store cfg) : Store cfg × Transaction :=
  if t.active then (st.noteRollback, t.finished) else (st, t)

/-- The destructor. -/
def destroy (t : Transaction) (st : Store cfg) : Store cfg :=
  if t.active then (t.rollback st).1 else st

/-- `Transaction::pendingOperations`. -/
def pendingOperations (t : Transaction) : Nat := t.mutations.length

/-! ## What a transaction reads -/

/-- What the mutations come to, as updates of a map. -/
def updates (t : Transaction) : List (Update Bytes Bytes) := t.mutations.map toUpdate

theorem updates_push (t : Transaction) (mutation : Mutation) :
    (t.push mutation).updates = t.updates ++ [toUpdate mutation] := List.map_append

theorem length_updates (t : Transaction) : t.updates.length = t.pendingOperations :=
  List.length_map ..

/-- What `get` finds at the position it is sent to. -/
theorem find_of_lookup (t : Transaction) {key : Bytes} {i : Nat}
    (h : t.latest.lookup key = some i) :
    t.mutations.reverse.find? (fun mutation => mutation.key = key)
      = some (t.mutations.get ⟨i, t.lt_of_lookup h⟩) := by
  have hlast := t.indexed key
  rw [h, Option.map_some, List.getElem?_eq_getElem (t.lt_of_lookup h)] at hlast
  obtain ⟨last, hfind, hlast⟩ := Option.map_eq_some_iff.mp hlast.symm
  rw [hfind, Option.some.inj hlast]
  rfl

/-- **A transaction reads its own writes**, on top of the store as it is now. -/
theorem get_result (t : Transaction) (st : Store cfg) (key : Bytes) :
    (t.get st key).2 = runUpdates t.updates st.map.contents key := by
  have hlast : t.updates.reverse.find? (fun u => u.1 = key)
      = (t.mutations.reverse.find? fun mutation => mutation.key = key).map toUpdate := by
    rw [updates, ← List.map_reverse, List.find?_map]
    rfl
  rw [runUpdates_eq_last, hlast]
  unfold get
  split
  · rename_i i hi
    rw [t.find_of_lookup hi]
    rfl
  · rename_i hi
    have hnone := t.indexed key
    rw [hi, Option.map_none] at hnone
    rw [Option.map_eq_none_iff.mp hnone.symm]
    exact ShardedMap.get_result st.map key

theorem contents_get (t : Transaction) (st : Store cfg) (key : Bytes) :
    (t.get st key).1.map.contents = st.map.contents := by
  unfold get
  split
  · rfl
  · rw [(Store.get_store st key).1]
    exact ShardedMap.contents_get st.map key

end Transaction

end KvStore.Txn
