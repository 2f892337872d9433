import KvStore.Proof.Sessions

/-!
# Where values come from

Whatever a session finds in the store, or in its own transaction, some line has put there
with `SET`. So a property that the values of all such lines have is a property of every
value there is: evictions only take values away, and an append that fails changes
nothing.
-/

namespace KvStore.Sessions

open Lib Wal Protocol Txn

variable {cfg : StoreConfig} {P : Bytes → Prop}

/-- Every value has the property. -/
def Values (P : Bytes → Prop) (contents : Bytes → Option Bytes) : Prop :=
  ∀ key value, contents key = some value → P value

/-- Every value that a list of updates puts somewhere has the property. -/
def UpdateValues (P : Bytes → Prop) (us : List (Update Bytes Bytes)) : Prop :=
  ∀ u ∈ us, ∀ value ∈ u.2, P value

namespace Values

variable {contents contents' : Bytes → Option Bytes}

theorem within (h : Values P contents) (hle : Within contents' contents) : Values P contents' :=
  fun key value hvalue => h key value (hle key value hvalue)

theorem runUpdates (h : Values P contents) {us : List (Update Bytes Bytes)}
    (hus : UpdateValues P us) : Values P (runUpdates us contents) := by
  intro key value hvalue
  rcases runUpdates_eq_some hvalue with hold | hnew
  · exact h key value hold
  · exact hus _ hnew value rfl

variable {st : Store cfg}

theorem set (h : Values P st.map.contents) {value : Bytes} (hvalue : P value) (key : Bytes)
    (io : Io) : Values P (st.set key value io).1.map.contents := by
  have hus : UpdateValues P [(key, some value)] := by simpa [UpdateValues] using hvalue
  -- an eviction that follows takes values away
  have hmap : Values P (st.map.set key value).contents :=
    (h.runUpdates hus).within (ShardedMap.set_within st.map key value)
  unfold Store.set
  split
  · split
    · exact h
    · exact hmap
  · exact hmap

theorem del (h : Values P st.map.contents) (key : Bytes) (io : Io) :
    Values P (st.del key io).1.map.contents := by
  have hus : UpdateValues P [(key, none)] := by simp [UpdateValues]
  have hmap : Values P (st.map.del key).1.contents := by
    rw [ShardedMap.contents_del]
    exact h.runUpdates hus
  unfold Store.del
  split
  · split
    · exact h
    · exact hmap
  · exact hmap

theorem commitTransaction (h : Values P st.map.contents) {mutations : List Mutation}
    (hvalues : UpdateValues P (mutations.map toUpdate)) (txnId : UInt64) (io : Io) :
    Values P (st.commitTransaction txnId mutations io).1.map.contents := by
  have hmap : Values P (st.map.applyAtomically mutations).contents :=
    (h.runUpdates hvalues).within (ShardedMap.applyAtomically_within st.map mutations)
  unfold Store.commitTransaction
  split
  · exact h
  · split
    · split
      · exact h
      · exact hmap
    · exact hmap

/-- What `commit` leaves of the transaction is what it was, or nothing. -/
theorem commit (h : Values P st.map.contents) {t : Transaction} (ht : UpdateValues P t.updates)
    (io : Io) :
    Values P (t.commit st io).1.map.contents ∧ UpdateValues P (t.commit st io).2.1.updates := by
  have hmap := h.commitTransaction ht t.id io
  unfold Transaction.commit
  split
  · split
    · rename_i heq
      rw [heq] at hmap
      exact ⟨hmap, ht⟩
    · rename_i heq
      rw [heq] at hmap
      exact ⟨hmap, by simp [UpdateValues, Transaction.updates, Transaction.finished]⟩
  · exact ⟨h, ht⟩

end Values

theorem UpdateValues.push {t : Transaction} (h : UpdateValues P t.updates) {mutation : Mutation}
    (hvalue : mutation.erase = false → P mutation.value) :
    UpdateValues P (t.push mutation).updates := by
  rw [Transaction.updates_push]
  intro u hu value hv
  rcases List.mem_append.mp hu with hu | hu
  · exact h u hu value hv
  · cases List.mem_singleton.mp hu
    unfold toUpdate at hv
    cases he : mutation.erase with
    | true => simp [he] at hv
    | false =>
        simp only [he, Bool.false_eq_true, if_false, Option.mem_some_iff] at hv
        exact hv ▸ hvalue he

/-- Every value of the transaction has the property. -/
def SessionValues (P : Bytes → Prop) (session : Session) : Prop :=
  ∀ t ∈ session.transaction, UpdateValues P t.updates

theorem sessionValues_none {session : Session} (h : session.transaction = none) :
    SessionValues P session := by
  intro t ht
  rw [h] at ht
  exact absurd ht (by simp)

theorem destroy_values {st : Store cfg} (h : Values P st.map.contents) (session : Session) :
    Values P (session.destroy st).map.contents := by
  unfold Session.destroy
  split
  · rw [destroy_map]
    exact h
  · exact h

section Line

variable {session : Session} {st : Store cfg}

/-- The store and the session after a call have only values with the property. -/
def HandledValues (P : Bytes → Prop) (r : Handled cfg) : Prop :=
  Values P r.store.map.contents ∧ SessionValues P r.session

theorem write_values (hst : Values P st.map.contents) (hsession : SessionValues P session)
    {inside : Transaction → Transaction}
    (hinside : ∀ t ∈ session.transaction, UpdateValues P (inside t).updates)
    {outside : Store cfg × Except LogError Unit} (houtside : Values P outside.1.map.contents) :
    HandledValues P (session.write st inside outside) := by
  unfold Session.write
  split
  · rename_i t ht
    refine ⟨hst, fun t' ht' => ?_⟩
    cases ht'
    exact hinside t ht
  · exact ⟨houtside, hsession⟩

/-- **One line.** If it sets a value, that value must have the property. -/
theorem handleLine_values (hst : Values P st.map.contents) (hsession : SessionValues P session)
    {line : Bytes} (hset : (parse line).type = .set → P (parse line).value) (w : World) :
    HandledValues P (session.handleLine st line w) := by
  unfold Session.handleLine
  generalize parse line = cmd at hset
  obtain ⟨type, key, value, error⟩ := cmd
  dsimp only at hset ⊢
  split
  · exact ⟨hst, hsession⟩
  split
  · exact ⟨hst, hsession⟩
  cases type with
  | set =>
      refine write_values hst hsession (fun t ht => ?_) (hst.set (hset rfl) key w.io)
      unfold Transaction.set
      split
      · exact (hsession t ht).push fun _ => hset rfl
      · exact hsession t ht
  | del =>
      refine write_values hst hsession (fun t ht => ?_) (hst.del key w.io)
      unfold Transaction.del
      split
      · exact (hsession t ht).push fun he => absurd he (by simp)
      · exact hsession t ht
  | get =>
      refine ⟨?_, hsession⟩
      dsimp only
      split
      · rw [Transaction.contents_get]
        exact hst
      · rw [(Store.get_store st key).1, ShardedMap.contents_get]
        exact hst
  | begin =>
      dsimp only
      split
      · exact ⟨hst, hsession⟩
      · refine ⟨hst, fun t ht => ?_⟩
        cases ht
        simp [UpdateValues, Transaction.updates, Transaction.make]
  | commit =>
      dsimp only
      split
      · exact ⟨hst, hsession⟩
      · rename_i t ht
        obtain ⟨hcontents, hupdates⟩ := hst.commit (hsession t ht) w.io
        split
        · -- the transaction stays open, with the values it had
          rename_i heq
          rw [heq] at hcontents hupdates
          refine ⟨hcontents, fun t' ht' => ?_⟩
          cases ht'
          exact hupdates
        · rename_i heq
          rw [heq] at hcontents
          refine ⟨?_, sessionValues_none rfl⟩
          rw [destroy_map]
          exact hcontents
  | rollback =>
      dsimp only
      split
      · exact ⟨hst, hsession⟩
      · refine ⟨?_, sessionValues_none rfl⟩
        rw [destroy_map]
        unfold Transaction.rollback
        split
        · exact hst
        · exact hst
  | compact =>
      refine ⟨?_, hsession⟩
      dsimp only
      rw [compact_map]
      exact hst
  | stats => exact ⟨hst, hsession⟩
  | quit => exact ⟨hst, hsession⟩
  | invalid => exact ⟨hst, hsession⟩

end Line

end KvStore.Sessions
