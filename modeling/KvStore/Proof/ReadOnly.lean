import KvStore.Proof.Sessions

/-!
# Clients cannot change a read-only node

The guard of `handleLine` turns away three commands. `BEGIN` and `COMMIT` are not among
them, and a commit writes to the log and to the map what its transaction holds. But
nothing can get into a transaction on such a node, and the commit of an empty one is
counted and no more.
-/

namespace KvStore.Sessions

open Lib Wal Protocol Txn
open Repl (ascii)

variable {ι : Type} [DecidableEq ι] {cfg : StoreConfig}

/-- The session has nothing to commit. -/
def Idle (session : Session) : Prop := ∀ t ∈ session.transaction, t.mutations = []

/-- The same keys with the same values, and the same log. -/
structure SameData (st st' : Store cfg) : Prop where
  contents : st'.map.contents = st.map.contents
  log : st'.log = st.log

namespace SameData

theorem refl (st : Store cfg) : SameData st st := ⟨rfl, rfl⟩

theorem trans {st st' st'' : Store cfg} (h : SameData st st') (h' : SameData st' st'') :
    SameData st st'' := ⟨h'.contents.trans h.contents, h'.log.trans h.log⟩

theorem get (st : Store cfg) (key : Bytes) : SameData st (st.get key).1 := by
  obtain ⟨hmap, hlog⟩ := Store.get_store st key
  exact ⟨(congrArg _ hmap).trans (ShardedMap.contents_get st.map key), hlog⟩

theorem transaction_get (t : Transaction) (st : Store cfg) (key : Bytes) :
    SameData st (t.get st key).1 := by
  unfold Transaction.get
  split
  · exact refl st
  · exact get st key

theorem rollback (t : Transaction) (st : Store cfg) : SameData st (t.rollback st).1 := by
  unfold Transaction.rollback
  split
  · exact ⟨rfl, rfl⟩
  · exact refl st

theorem destroy (t : Transaction) (st : Store cfg) : SameData st (t.destroy st) := by
  unfold Transaction.destroy
  split
  · exact rollback t st
  · exact refl st

/-- The commit of an empty transaction; one that fails leaves the transaction as it was. -/
theorem commit {t : Transaction} (hempty : t.mutations = []) (st : Store cfg) (io : Io) :
    SameData st (t.commit st io).1
      ∧ ((t.commit st io).2.2 = false → (t.commit st io).2.1.mutations = []) := by
  unfold Transaction.commit
  split
  · rw [Store.commitTransaction, if_pos hempty]
    exact ⟨⟨rfl, rfl⟩, fun hfalse => absurd hfalse (by simp)⟩
  · exact ⟨refl st, fun _ => hempty⟩

end SameData

/-- **A line changes nothing**, and leaves the session with nothing to commit. -/
theorem handleLine_readOnly (hreadOnly : cfg.readOnly = true) {session : Session}
    (hidle : Idle session) (st : Store cfg) (line : Bytes) (w : World) :
    SameData st (session.handleLine st line w).store
      ∧ Idle (session.handleLine st line w).session := by
  unfold Session.handleLine
  generalize parse line = cmd
  obtain ⟨type, key, value, error⟩ := cmd
  cases type with
  | set =>
      rw [if_pos ⟨hreadOnly, .inl rfl⟩]
      exact ⟨.refl st, hidle⟩
  | del =>
      rw [if_pos ⟨hreadOnly, .inr rfl⟩]
      exact ⟨.refl st, hidle⟩
  | compact =>
      rw [if_neg (by simp), if_pos ⟨hreadOnly, rfl⟩]
      exact ⟨.refl st, hidle⟩
  | get =>
      rw [if_neg (by simp), if_neg (by simp)]
      refine ⟨?_, hidle⟩
      dsimp only
      split
      · exact SameData.transaction_get _ st key
      · exact SameData.get st key
  -- transactions may be opened; there is nothing that could get into one
  | begin =>
      rw [if_neg (by simp), if_neg (by simp)]
      dsimp only
      split
      · exact ⟨.refl st, hidle⟩
      · refine ⟨⟨rfl, rfl⟩, fun t ht => ?_⟩
        cases ht
        rfl
  | commit =>
      rw [if_neg (by simp), if_neg (by simp)]
      dsimp only
      split
      · exact ⟨.refl st, hidle⟩
      · rename_i t ht
        obtain ⟨hsame, hopen⟩ := SameData.commit (hidle t ht) st w.io
        -- a commit of nothing, whether it succeeds or fails
        split
        · rename_i st' t' heq
          rw [heq] at hsame hopen
          refine ⟨hsame, fun t'' ht'' => ?_⟩
          cases ht''
          exact hopen rfl
        · rename_i st' t' heq
          rw [heq] at hsame
          exact ⟨hsame.trans (SameData.destroy t' st'), fun t'' ht'' => absurd ht'' (by simp)⟩
  | rollback =>
      rw [if_neg (by simp), if_neg (by simp)]
      dsimp only
      split
      · exact ⟨.refl st, hidle⟩
      · rename_i t ht
        exact ⟨(SameData.rollback t st).trans (SameData.destroy _ _),
          fun t'' ht'' => absurd ht'' (by simp)⟩
  | stats =>
      rw [if_neg (by simp), if_neg (by simp)]
      exact ⟨.refl st, hidle⟩
  | quit =>
      rw [if_neg (by simp), if_neg (by simp)]
      exact ⟨.refl st, hidle⟩
  | invalid =>
      rw [if_neg (by simp), if_neg (by simp)]
      exact ⟨.refl st, hidle⟩

/-- No session has anything to commit, and the data are those of `st`. -/
structure DataUnchanged (st : Store cfg) (s : State cfg ι) : Prop where
  data : SameData st s.store
  idle : ∀ i, ∀ session ∈ s.sessions i, Idle session

theorem idle_update {sessions : ι → Option Session} (h : ∀ i, ∀ session ∈ sessions i, Idle session)
    (i : ι) {new : Option Session} (hnew : ∀ session ∈ new, Idle session) :
    ∀ j, ∀ session ∈ Function.update sessions i new j, Idle session := by
  intro j session hj
  by_cases hji : j = i
  · subst hji
    rw [Function.update_self] at hj
    exact hnew session hj
  · rw [Function.update_of_ne hji] at hj
    exact h j session hj

theorem DataUnchanged.step (hreadOnly : cfg.readOnly = true) {st : Store cfg} {s s' : State cfg ι}
    (h : DataUnchanged st s) {e : Event ι} (hs : step s e = some s') : DataUnchanged st s' := by
  cases e with
  | connect i =>
      rw [Sessions.step] at hs
      split at hs
      · cases hs
        refine ⟨h.data, idle_update h.idle i fun session hsession => ?_⟩
        cases hsession
        exact fun t ht => absurd ht (by simp)
      · exact absurd hs (by simp)
  | line i line w =>
      rw [Sessions.step] at hs
      split at hs
      · exact absurd hs (by simp)
      · rename_i session hi
        cases hs
        obtain ⟨hsame, hidle⟩ := handleLine_readOnly hreadOnly (h.idle i session hi) s.store line w
        refine ⟨h.data.trans hsame, idle_update h.idle i fun session' hsession => ?_⟩
        cases hsession
        exact hidle
  | disconnect i =>
      rw [Sessions.step] at hs
      split at hs
      · exact absurd hs (by simp)
      · rename_i session hi
        cases hs
        refine ⟨?_, idle_update h.idle i fun _ hnone => absurd hnone (by simp)⟩
        show SameData st (session.destroy s.store)
        unfold Session.destroy
        split
        · exact h.data.trans (SameData.destroy _ s.store)
        · exact h.data

/--
**A read-only node is out of the clients' reach**: whatever lines come, from whichever
sessions and in whatever order, whatever the system calls do meanwhile, and whoever
leaves in between, the map has the contents it had and the log the bytes and the offset.
-/
theorem readOnly_unchanged (hreadOnly : cfg.readOnly = true) (st : Store cfg)
    (events : List (Event ι)) (s : State cfg ι)
    (hrun : (system cfg ι).run { store := st } events = some s) :
    s.store.map.contents = st.map.contents ∧ s.store.log.file = st.log.file
      ∧ s.store.log.offset = st.log.offset := by
  have hstart : DataUnchanged st ({ store := st } : State cfg ι) :=
    ⟨.refl st, fun _ _ hnone => absurd hnone (by simp)⟩
  have h := System.run_invariant (I := DataUnchanged st)
    (fun _ _ _ hi hs => DataUnchanged.step hreadOnly hi hs) hstart hrun
  rw [h.data.log]
  exact ⟨h.data.contents, rfl, rfl⟩

/-- A transaction that is begun, written to and committed on such a node, and a compaction. -/
theorem readOnly_unchanged_commit :
    let cfg : StoreConfig := { standalone with readOnly := true }
    ∃ s, (system cfg Unit).run { store := Store.openOn cfg [] }
        [.connect (), .line () (ascii "BEGIN") {}, .line () (ascii "SET a 1") {},
          .line () (ascii "COMMIT") {}, .line () (ascii "COMPACT") {}, .disconnect ()] = some s
      ∧ s.replies.length = 4 ∧ s.store.map.contents = (Store.openOn cfg []).map.contents := by
  intro cfg
  have hsome : ((system cfg Unit).run { store := Store.openOn cfg [] }
      [.connect (), .line () (ascii "BEGIN") {}, .line () (ascii "SET a 1") {},
        .line () (ascii "COMMIT") {}, .line () (ascii "COMPACT") {}, .disconnect ()]).any
      (fun s => decide (s.replies.length = 4)) = true := by decide +kernel
  rw [Option.any_eq_true] at hsome
  obtain ⟨s, hrun, hreplies⟩ := hsome
  exact ⟨s, hrun, of_decide_eq_true hreplies, (readOnly_unchanged rfl _ _ s hrun).1⟩

end KvStore.Sessions
