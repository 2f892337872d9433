import KvStore.Proof.Interleaving
import KvStore.Proof.Reads

/-!
# Compaction among writers

A compaction replaces the log by what memory has. A write that is in the log and not
yet in memory would be lost by that, and so would one that goes into the old file
while the new one is written. `walEpoch_` keeps both from happening: writers hold it
shared from before their append to after their apply, and a compaction holds it alone.

Writers may still overtake each other between the log and memory, and then the two
disagree, with or without compactions. So the question is asked for a key whose
writers come one after another, whatever happens to other keys meanwhile: the log
then has of that key what memory has, but for the one write that is on its way. As
for every log, it has to be one that can be written behind, by records that can be
read again.
-/

namespace KvStore

open Lib Wal Protocol

variable {cfg : StoreConfig}

/-- The operation changes the key. -/
def Op.Writes (op : Op) (key : Bytes) : Prop := key ∈ op.updates.map Prod.fst

instance (op : Op) (key : Bytes) : Decidable (op.Writes key) :=
  inferInstanceAs (Decidable (key ∈ op.updates.map Prod.fst))

/-- The operation a thread is in. -/
def Writers.Phase.op : Writers.Phase → Op
  | .entered op => op
  | .appended op _ => op
  | .applied op => op

namespace Epoch

variable {n : Nat}

/-! ## Writers and compactions -/

/-- Where `Store::compact` is. -/
inductive Compaction where
  | idle
  /-- Holds `walEpoch_` alone. -/
  | locked
  /-- Has the snapshot, and is in `Compactor::rewrite`. -/
  | rewriting (r : Compactor.Rewriting)
  | reopened
  deriving DecidableEq, Repr

/-- Client threads, and the compaction that keeps them out. -/
structure State (cfg : StoreConfig) (n : Nat) extends Writers.State cfg n where
  compaction : Compaction := .idle

/-- The file at the path of the log. -/
def State.path (s : State cfg n) : Bytes :=
  match s.compaction with
  | .rewriting r => r.path
  | _ => s.store.log.file

/-- A step of a client thread, or of a compaction. -/
inductive Act (n : Nat) where
  | writer (a : Writers.Act n)
  /-- A compaction is given the lock. -/
  | lock
  /-- The entries in the order `snapshot` lists them. -/
  | snapshot (entries : List (Bytes × Bytes))
  | rewrite (answer : Compactor.Answer)
  /-- The rewrite has returned; if it succeeded the log is opened again. -/
  | reopen
  | release
  deriving DecidableEq, Repr

/-- A client thread enters only when no compaction has `walEpoch_` alone. -/
def step (s : State cfg n) : Act n → Option (State cfg n)
  | .writer a =>
      match a with
      | .enter _ _ =>
          if s.compaction = .idle then
            (Writers.step s.toState a).map fun w => { s with toState := w }
          else none
      | _ => (Writers.step s.toState a).map fun w => { s with toState := w }
  | .lock =>
      if s.compaction = .idle ∧ ∀ t, s.threads t = none then some { s with compaction := .locked }
      else none
  | .snapshot entries =>
      match s.compaction with
      | .locked =>
          if entries.Perm s.store.map.snapshot then
            some { s with
              compaction := .rewriting
                { path := s.store.log.file
                  temp := none
                  stage := .opening entries
                  result := { bytesBefore := s.store.log.file.length } } }
          else none
      | _ => none
  | .rewrite answer =>
      match s.compaction with
      | .rewriting r =>
          (Compactor.stepRewrite r answer).map fun r => { s with compaction := .rewriting r }
      | _ => none
  | .reopen =>
      match s.compaction with
      | .rewriting r =>
          if r.stage = .returned then
            some { s with store := (s.store.compact r).1, compaction := .reopened }
          else none
      | _ => none
  | .release =>
      match s.compaction with
      | .reopened => some { s with compaction := .idle }
      | _ => none

/-- Writers and compactions of a store that was opened on `file`. -/
def system (cfg : StoreConfig) (n : Nat) (file : Bytes) : System (State cfg n) (Act n) where
  init s := s = { store := Store.openOn cfg file, threads := fun _ => none }
  step := step

/-- The operation that begins with the step. -/
def Act.begins : Act n → Option Op
  | .writer (.enter _ op) => some op
  | _ => none

/-- An operation that writes the key begins when no other that writes it is in flight. -/
def OneAtATime (key : Bytes) (s : State cfg n) (a : Act n) : Prop :=
  ∀ op ∈ a.begins, op.Writes key → ∀ t, ∀ p ∈ s.threads t, ¬ p.op.Writes key

instance (key : Bytes) (s : State cfg n) (a : Act n) : Decidable (OneAtATime key s a) :=
  inferInstanceAs (Decidable (∀ op ∈ a.begins, _))

/-- An operation that begins is short enough to be read again. -/
def Act.Fits (a : Act n) : Prop := ∀ op ∈ a.begins, op.Fits

instance (a : Act n) : Decidable a.Fits := inferInstanceAs (Decidable (∀ op ∈ a.begins, _))

/-- What a key and the log need of a step. -/
def Readable (key : Bytes) (s : State cfg n) (a : Act n) : Prop := OneAtATime key s a ∧ a.Fits

instance (key : Bytes) (s : State cfg n) (a : Act n) : Decidable (Readable key s a) :=
  inferInstanceAs (Decidable (_ ∧ _))

/-! ## Who is in flight -/

/-- Operations in flight can be logged, and one of them at most writes the key. -/
structure Flight (key : Bytes) (ops : Fin n → Option Op) : Prop where
  sound : ∀ t op, ops t = some op → op.payloads ≠ [] ∧ op.Fits
  single : ∀ t t' op op', ops t = some op → ops t' = some op' → op.Writes key → op'.Writes key →
    t = t'

/-- The operation of every thread. -/
def opsOf (threads : Fin n → Option Writers.Phase) (t : Fin n) : Option Op :=
  (threads t).map Writers.Phase.op

theorem opsOf_update (threads : Fin n → Option Writers.Phase) (t : Fin n)
    (p : Option Writers.Phase) :
    opsOf (Function.update threads t p)
      = Function.update (opsOf threads) t (p.map Writers.Phase.op) := by
  funext t'
  exact Function.apply_update (fun _ => Option.map Writers.Phase.op) threads t p t'

section Flight

variable {key : Bytes} {ops : Fin n → Option Op} {t : Fin n}

theorem flight_enter (h : Flight key ops) {op : Op} (hne : op.payloads ≠ []) (hfit : op.Fits)
    (halone : op.Writes key → ∀ t op', ops t = some op' → ¬ op'.Writes key) :
    Flight key (Function.update ops t (some op)) := by
  refine ⟨fun t' op' ht' => ?_, fun t1 t2 op1 op2 h1 h2 hw1 hw2 => ?_⟩
  · by_cases heq : t' = t
    · subst heq
      rw [Function.update_self] at ht'
      cases ht'
      exact ⟨hne, hfit⟩
    · rw [Function.update_of_ne heq] at ht'
      exact h.sound t' op' ht'
  · by_cases heq1 : t1 = t
    · by_cases heq2 : t2 = t
      · rw [heq1, heq2]
      · rw [heq1, Function.update_self] at h1
        rw [Function.update_of_ne heq2] at h2
        cases h1
        exact absurd hw2 (halone hw1 t2 op2 h2)
    · rw [Function.update_of_ne heq1] at h1
      by_cases heq2 : t2 = t
      · rw [heq2, Function.update_self] at h2
        cases h2
        exact absurd hw1 (halone hw2 t1 op1 h1)
      · rw [Function.update_of_ne heq2] at h2
        exact h.single t1 t2 op1 op2 h1 h2 hw1 hw2

theorem flight_release (h : Flight key ops) : Flight key (Function.update ops t none) := by
  have hold : ∀ t' op, Function.update ops t none t' = some op → ops t' = some op := by
    intro t' op ht'
    by_cases heq : t' = t
    · subst heq
      rw [Function.update_self] at ht'
      exact absurd ht' (by simp)
    · rwa [Function.update_of_ne heq] at ht'
  exact ⟨fun t' op ht' => h.sound t' op (hold t' op ht'),
    fun t1 t2 op1 op2 h1 h2 => h.single t1 t2 op1 op2 (hold _ _ h1) (hold _ _ h2)⟩

end Flight

/-! ## What the log has of the key -/

/-- The log has what memory has, but for an operation on its way from the one to the other. -/
structure Ahead (key : Bytes) (threads : Fin n → Option Writers.Phase)
    (logged memory : Bytes → Option Bytes) : Prop where
  pending : ∀ t op e, threads t = some (.appended op e) → op.Writes key →
    logged key = runUpdates op.updates memory key
  settled : (∀ t op e, threads t = some (.appended op e) → ¬ op.Writes key) →
    logged key = memory key

section Ahead

variable {key : Bytes} {threads : Fin n → Option Writers.Phase}
  {logged memory : Bytes → Option Bytes}
  {t : Fin n} {op : Op}

/-- A thread that neither was nor comes to be between log and memory. -/
theorem ahead_aside (h : Ahead key threads logged memory) {p : Option Writers.Phase}
    (hold : ∀ op e, threads t ≠ some (.appended op e)) (hnew : ∀ op e, p ≠ some (.appended op e)) :
    Ahead key (Function.update threads t p) logged memory := by
  have hiff := Writers.appended_update hold hnew
  refine ⟨fun t' op' e' ht' => h.pending t' op' e' ((hiff t' op' e').mp ht'), fun hnone => ?_⟩
  exact h.settled fun t' op' e' ht' => hnone t' op' e' ((hiff t' op' e').mpr ht')

theorem ahead_append (h : Ahead key threads logged memory) (hflight : Flight key (opsOf threads))
    (hent : threads t = some (.entered op)) (e : Nat) :
    Ahead key (Function.update threads t (some (.appended op e)))
      (runUpdates op.updates logged) memory := by
  -- nobody else writes the key if this one does
  have halone : op.Writes key → ∀ t' op' e', threads t' = some (.appended op' e') →
      ¬ op'.Writes key := by
    intro hw t' op' e' ht' hw'
    have heq :=
      hflight.single t t' op op' (by rw [opsOf, hent]; rfl) (by rw [opsOf, ht']; rfl) hw hw'
    rw [← heq, hent] at ht'
    exact absurd ht' (by simp)
  by_cases hw : op.Writes key
  · have hbefore := h.settled (halone hw)
    refine ⟨fun t' op' e' ht' hw' => ?_, fun hnone => ?_⟩
    · by_cases heq : t' = t
      · subst heq
        rw [Function.update_self] at ht'
        cases ht'
        exact runUpdates_congr_at hbefore
      · rw [Function.update_of_ne heq] at ht'
        exact absurd hw' (halone hw t' op' e' ht')
    · exact absurd hw (hnone t op e (Function.update_self ..))
  · have hsame : runUpdates op.updates logged key = logged key := runUpdates_of_not_mem hw
    refine ⟨fun t' op' e' ht' hw' => ?_, fun hnone => ?_⟩
    · by_cases heq : t' = t
      · subst heq
        rw [Function.update_self] at ht'
        cases ht'
        exact absurd hw' hw
      · rw [Function.update_of_ne heq] at ht'
        rw [hsame]
        exact h.pending t' op' e' ht' hw'
    · rw [hsame]
      refine h.settled fun t' op' e' ht' => ?_
      refine hnone t' op' e' ?_
      rw [Function.update_of_ne (fun heq => by rw [heq, hent] at ht'; exact absurd ht' (by simp))]
      exact ht'

theorem ahead_apply (h : Ahead key threads logged memory) (hflight : Flight key (opsOf threads))
    {e : Nat} (happ : threads t = some (.appended op e)) :
    Ahead key (Function.update threads t (some (.applied op))) logged
      (runUpdates op.updates memory) := by
  have hother : ∀ t' op' e', Function.update threads t (some (.applied op)) t'
      = some (.appended op' e') → t' ≠ t ∧ threads t' = some (.appended op' e') := by
    intro t' op' e' ht'
    by_cases heq : t' = t
    · subst heq
      rw [Function.update_self] at ht'
      exact absurd ht' (by simp)
    · rw [Function.update_of_ne heq] at ht'
      exact ⟨heq, ht'⟩
  by_cases hw : op.Writes key
  · -- nobody else is between its append and its map, since one writes the key at a time
    refine ⟨fun t' op' e' ht' hw' => ?_, fun _ => h.pending t op e happ hw⟩
    obtain ⟨hne, ht'⟩ := hother t' op' e' ht'
    refine absurd ?_ hne
    exact hflight.single t' t op' op (by rw [opsOf, ht']; rfl) (by rw [opsOf, happ]; rfl) hw' hw
  · have hsame : runUpdates op.updates memory key = memory key := runUpdates_of_not_mem hw
    refine ⟨fun t' op' e' ht' hw' => ?_, fun hnone => ?_⟩
    · rw [h.pending t' op' e' (hother t' op' e' ht').2 hw']
      exact runUpdates_congr_at hsame.symm
    · rw [hsame]
      refine h.settled fun t' op' e' ht' => ?_
      by_cases heq : t' = t
      · subst heq
        rw [happ] at ht'
        cases ht'
        exact hw
      · refine hnone t' op' e' ?_
        rw [Function.update_of_ne heq]
        exact ht'

end Ahead

/-! ## One step -/

/-- What holds of the key between any two steps. -/
structure Inv (key : Bytes) (s : State cfg n) : Prop where
  budget : CachesInBudget s.store.map
  loggable : Loggable s.store.map
  flight : Flight key (opsOf s.threads)
  reads : ∃ m, Reads cfg s.store.log.file m ∧ Ahead key s.threads m.contents s.store.map.contents
  /-- A compaction has the epoch to itself. -/
  alone : s.compaction ≠ .idle → ∀ t, s.threads t = none
  rewriting : ∀ r, s.compaction = .rewriting r →
    ∃ entries, entries.Perm s.store.map.snapshot ∧ r.Atomic s.store.log.file entries

section Inv

variable {key : Bytes} {s s' : State cfg n}

theorem inv_init (hlog : cfg.logEnabled = true) {file : Bytes}
    (hclosed : (Store.openOn cfg file).recoveryDiscardedTransaction = false) :
    Inv key ({ store := Store.openOn cfg file, threads := fun _ => none } : State cfg n) := by
  have hlogged := canBeLogged_recovered cfg file
  refine ⟨?_, ?_, ⟨by simp [opsOf], by simp [opsOf]⟩,
    ⟨_, reads_openOn hlog hclosed, by simp, fun _ => rfl⟩, fun _ _ => rfl, by simp⟩
  · exact (openOn_map hlog file).symm ▸ hlogged.budget
  · exact (openOn_map hlog file).symm ▸ hlogged.loggable

/-- A writer in the epoch keeps compactions out. -/
theorem Inv.idle (h : Inv key s) {t : Fin n} {p : Writers.Phase} (ht : s.threads t = some p) :
    s.compaction = .idle := by
  by_contra hne
  have hnone := h.alone hne t
  rw [ht] at hnone
  exact absurd hnone (by simp)

/-- A writer that takes a step enters the epoch or is in it. -/
theorem inside {w w' : Writers.State cfg n} {a : Writers.Act n} (hw : Writers.Stepped w a w') :
    (∃ t op, a = .enter t op) ∨ ∃ t p, w.threads t = some p := by
  cases hw with
  | entered => exact .inl ⟨_, _, rfl⟩
  | appended hent => exact .inr ⟨_, _, hent⟩
  | applied happ => exact .inr ⟨_, _, happ⟩
  | released happ => exact .inr ⟨_, _, happ⟩

theorem inv_writer (hlog : cfg.logEnabled = true) (hoff : cfg.maxMemoryBytes = 0)
    (h : Inv key s) {a : Writers.Act n} {w : Writers.State cfg n}
    (hok : Readable key s (.writer a)) (hidle : s.compaction = .idle)
    (hw : Writers.Stepped s.toState a w) : Inv key { s with toState := w } := by
  obtain ⟨m, hreads, hahead⟩ := h.reads
  have halone : ({ s with toState := w } : State cfg n).compaction ≠ .idle →
      ∀ t, w.threads t = none := fun hne => absurd hidle hne
  have hrewriting : ∀ r, s.compaction = .rewriting r → ∃ entries : List (Bytes × Bytes),
      entries.Perm w.store.map.snapshot ∧ r.Atomic w.store.log.file entries := by
    intro r hr
    rw [hidle] at hr
    exact absurd hr (by simp)
  cases hw with
  | @entered t op ht hne =>
      refine ⟨h.budget, h.loggable, ?_, ⟨m, hreads, ahead_aside hahead (by simp [ht]) (by simp)⟩,
        halone, hrewriting⟩
      rw [opsOf_update]
      refine flight_enter h.flight hne (hok.2 op rfl) fun hwrites t' op' ht' => ?_
      obtain ⟨p, hp, rfl⟩ := Option.map_eq_some_iff.mp ht'
      exact hok.1 op rfl hwrites t' p hp
  -- the log goes ahead of memory
  | @appended t op log hent hfile =>
      obtain ⟨hne, hfit⟩ := h.flight.sound t op (by rw [opsOf, hent]; rfl)
      refine ⟨h.budget, h.loggable, ?_, ⟨op.applyTo m, ?_, ?_⟩, halone, hrewriting⟩
      · rw [opsOf_update, Option.map_some, Function.update_eq_self_iff.mpr]
        · exact h.flight
        · rw [opsOf, hent]
          rfl
      · dsimp only
        rw [(hfile hne).1]
        exact hreads.append hlog hfit
      · rw [applyTo_contents hoff]
        exact ahead_append hahead h.flight hent _
  -- and memory catches up
  | @applied t op e happ =>
      obtain ⟨-, hfit⟩ := h.flight.sound t op (by rw [opsOf, happ]; rfl)
      refine ⟨h.budget.applyTo op,
        loggable_applyTo h.loggable op fun k v hkv => fits_set_of_update hfit hkv, ?_,
        ⟨m, hreads, ?_⟩, halone, hrewriting⟩
      · rw [opsOf_update, Option.map_some, Function.update_eq_self_iff.mpr]
        · exact h.flight
        · rw [opsOf, happ]
          rfl
      · dsimp only
        rw [applyTo_contents hoff]
        exact ahead_apply hahead h.flight happ
  | @released t op happ =>
      refine ⟨h.budget, h.loggable, ?_, ⟨m, hreads, ahead_aside hahead (by simp [happ]) (by simp)⟩,
        halone, hrewriting⟩
      rw [opsOf_update]
      exact flight_release h.flight

/-- Nothing is between the log and memory when the log is replaced by what memory has. -/
theorem inv_reopen (hoff : cfg.maxMemoryBytes = 0) (h : Inv key s) {r : Compactor.Rewriting}
    (hr : s.compaction = .rewriting r) :
    Inv key { s with store := (s.store.compact r).1, compaction := .reopened } := by
  obtain ⟨entries, hperm, hatomic⟩ := h.rewriting r hr
  have hnone := h.alone (by rw [hr]; simp)
  unfold Store.compact
  split
  · dsimp only
    split
    · rename_i hok
      obtain ⟨m, hreads, hcontents⟩ := reads_rewrite hoff h.budget h.loggable hperm
      refine ⟨h.budget, h.loggable, h.flight, ⟨m, ?_, ?_⟩, fun _ => hnone, by simp⟩
      · have hpath := hatomic.path
        rw [if_pos hok] at hpath
        rw [← hpath] at hreads
        exact hreads
      · rw [hcontents]
        exact ⟨by simp [hnone], fun _ => rfl⟩
    · exact ⟨h.budget, h.loggable, h.flight, h.reads, fun _ => hnone, by simp⟩
  · exact ⟨h.budget, h.loggable, h.flight, h.reads, fun _ => hnone, by simp⟩

theorem inv_step (hlog : cfg.logEnabled = true) (hoff : cfg.maxMemoryBytes = 0) (h : Inv key s)
    {a : Act n} (hok : Readable key s a) (hs : step s a = some s') : Inv key s' := by
  cases a with
  | writer a =>
      have hw : ∃ w, Writers.step s.toState a = some w ∧ s' = { s with toState := w }
          ∧ s.compaction = .idle := by
        cases a with
        | enter t op =>
            rw [step] at hs
            split at hs
            · rename_i hidle
              obtain ⟨w, hw, rfl⟩ := Option.map_eq_some_iff.mp hs
              exact ⟨w, hw, rfl, hidle⟩
            · exact absurd hs (by simp)
        -- whoever is inside holds `walEpoch_` shared, so there is no compaction
        | _ =>
            obtain ⟨w, hw, rfl⟩ := Option.map_eq_some_iff.mp hs
            rcases inside (Writers.step_effect hw) with ⟨t, op, heq⟩ | ⟨t, p, ht⟩
            · exact absurd heq (by simp)
            · exact ⟨w, hw, rfl, h.idle ht⟩
      obtain ⟨w, hw, rfl, hidle⟩ := hw
      exact inv_writer hlog hoff h hok hidle (Writers.step_effect hw)
  | lock =>
      rw [step] at hs
      split at hs
      · rename_i hfree
        cases hs
        exact ⟨h.budget, h.loggable, h.flight, h.reads, fun _ => hfree.2, by simp⟩
      · exact absurd hs (by simp)
  | snapshot entries =>
      rw [step] at hs
      split at hs
      · rename_i hlocked
        split at hs
        · rename_i hperm
          cases hs
          refine ⟨h.budget, h.loggable, h.flight, h.reads, fun _ => h.alone (by simp [hlocked]), ?_⟩
          intro r hr
          cases hr
          exact ⟨entries, hperm, rfl, rfl, fun _ => rfl⟩
        · exact absurd hs (by simp)
      · exact absurd hs (by simp)
  | rewrite answer =>
      rw [step] at hs
      split at hs
      · rename_i r hr
        obtain ⟨r', hr', rfl⟩ := Option.map_eq_some_iff.mp hs
        obtain ⟨entries, hperm, hatomic⟩ := h.rewriting r hr
        refine ⟨h.budget, h.loggable, h.flight, h.reads, fun _ => h.alone (by simp [hr]), ?_⟩
        intro r'' heq
        cases heq
        exact ⟨entries, hperm, Compactor.atomic_step hatomic hr'⟩
      · exact absurd hs (by simp)
  | reopen =>
      rw [step] at hs
      split at hs
      · rename_i r hr
        split at hs
        · cases hs
          exact inv_reopen hoff h hr
        · exact absurd hs (by simp)
      · exact absurd hs (by simp)
  | release =>
      rw [step] at hs
      split at hs
      · rename_i hre
        cases hs
        exact ⟨h.budget, h.loggable, h.flight, h.reads, fun _ => h.alone (by simp [hre]), by simp⟩
      · exact absurd hs (by simp)

end Inv

theorem inv_reachable (hlog : cfg.logEnabled = true) (hoff : cfg.maxMemoryBytes = 0) {file : Bytes}
    (hclosed : (Store.openOn cfg file).recoveryDiscardedTransaction = false) {key : Bytes}
    {s : State cfg n} (h : (system cfg n file).ReachableBy (Readable key) s) : Inv key s := by
  refine h.invariant ?_ fun _ _ _ hs hok hstep => inv_step hlog hoff hs hok hstep
  rintro s rfl
  exact inv_init hlog hclosed

/-- The path has what is in the log that is open, or what will be in it when it is opened again. -/
theorem Inv.reads_path (hoff : cfg.maxMemoryBytes = 0) {key : Bytes} {s : State cfg n}
    (h : Inv key s) (hq : Writers.Quiescent s.toState) :
    ∃ m, Reads cfg s.path m ∧ m.contents key = s.store.map.contents key := by
  have hopen : ∃ m, Reads cfg s.store.log.file m ∧ m.contents key = s.store.map.contents key := by
    obtain ⟨m, hreads, hahead⟩ := h.reads
    refine ⟨m, hreads, hahead.settled fun t op e ht => ?_⟩
    rw [hq t] at ht
    exact absurd ht (by simp)
  unfold State.path
  split
  · rename_i r hr
    obtain ⟨entries, hperm, hatomic⟩ := h.rewriting r hr
    rw [hatomic.path]
    split
    · obtain ⟨m, hreads, hcontents⟩ := reads_rewrite hoff h.budget h.loggable hperm
      exact ⟨m, hreads, by rw [hcontents]⟩
    · exact hopen
  · exact hopen

/--
**Compaction loses no write**: whatever writers and compactions do, and wherever a
compaction is, with no writer inside an operation the file at the path of the log
replays to what memory has of every key whose writers came one after another. (The
log has no transaction open to begin with, and takes nothing too long to be read.)
-/
theorem compaction_loses_nothing (hlog : cfg.logEnabled = true) (hoff : cfg.maxMemoryBytes = 0)
    {file : Bytes} (hclosed : (Store.openOn cfg file).recoveryDiscardedTransaction = false)
    {key : Bytes} {s : State cfg n} (h : (system cfg n file).ReachableBy (Readable key) s)
    (hq : Writers.Quiescent s.toState) :
    (Store.openOn cfg s.path).map.contents key = s.store.map.contents key := by
  obtain ⟨m, hreads, hkey⟩ := (inv_reachable hlog hoff hclosed h).reads_path hoff hq
  rw [hreads.openOn_map hlog, hkey]

/-- Two writes of one key with a compaction between them, and a write of another that overtakes. -/
def compacted {n : Nat} (t u : Fin n) : List (Act n) :=
  [.writer (.enter t (.set [97] [49])), .writer (.enter u (.del [98])), .writer (.append t),
    .writer (.append u), .writer (.apply u), .writer (.apply t), .writer (.release t),
    .writer (.release u), .lock, .snapshot [([97], [49])], .rewrite .ok, .rewrite (.wrote 5),
    .rewrite .interrupted, .rewrite (.wrote 100), .rewrite .ok, .rewrite .ok, .reopen, .release,
    .writer (.enter u (.set [97] [50])), .writer (.append u), .writer (.apply u),
    .writer (.release u)]

theorem compaction_loses_nothing_compacted :
    ∃ s, (system standalone 2 []).ReachableBy (Readable [97]) s
      ∧ s.store.map.contents [97] = some [50]
      ∧ (Store.openOn standalone s.path).map.contents [97] = s.store.map.contents [97] := by
  obtain ⟨s, hreach, hq, hkey⟩ := System.exists_reachableBy
    (p := fun s => Writers.Quiescent s.toState ∧ s.store.map.contents [97] = some [50])
    (show (system standalone 2 []).ReachableBy (Readable [97]) _ from .init rfl)
    (compacted 0 1) (by decide +kernel) (by decide +kernel)
  exact ⟨s, hreach, hkey, compaction_loses_nothing rfl rfl rfl hreach hq⟩

/-- One writer, and no compaction; but the log ends in a transaction that was never closed. -/
theorem not_compaction_loses_nothing_behind_begin :
    ∃ s, (system standalone 1 (frame (serializeBeginMarker 1))).ReachableBy (OneAtATime [107]) s
      ∧ Writers.Quiescent s.toState ∧ s.store.map.contents [107] = some [118]
      ∧ (Store.openOn standalone s.path).map.contents [107] = none :=
  System.exists_reachableBy (.init rfl)
    [.writer (.enter 0 (.set [107] [118])), .writer (.append 0), .writer (.apply 0),
      .writer (.release 0)] (by decide +kernel) (by decide +kernel)

end Epoch

end KvStore
