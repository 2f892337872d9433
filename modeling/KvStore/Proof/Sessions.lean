import KvStore.Lib.Runs
import KvStore.Protocol.Session
import KvStore.Proof.Recovery

/-!
# What sessions are for

A machine that says it without transaction objects, indices into their mutations or
a log: the contents of the store are a function, and a session is outside of any
transaction or holds a list of updates. A transaction is read by applying its list to
the contents as they are, and committed by putting the result in their place.

Every line that any session is sent is answered as the machine answers it, in whatever
order the lines of the sessions come, and whoever leaves in between.
-/

namespace KvStore.Sessions

open Lib Wal Protocol Txn
open Repl (ascii)

/-! ## The machine -/

/-- The answer to one of the commands that the machine knows. -/
inductive Outcome where
  | ok
  | found (value : Option Bytes)
  | committed (operations : Nat)
  | rolledBack (operations : Nat)
  | alreadyInTransaction
  | notInTransaction
  deriving DecidableEq, Repr

/-- The bytes a client gets. -/
def Outcome.text : Outcome → Bytes
  | .ok => ascii "+OK\n"
  | .found none => ascii "$nil\n"
  | .found (some value) => ascii "$" ++ value ++ ascii "\n"
  | .committed operations => ascii "$committed=" ++ toDecimal operations ++ ascii "\n"
  | .rolledBack operations => ascii "$rolled_back=" ++ toDecimal operations ++ ascii "\n"
  | .alreadyInTransaction => ascii "-ERR already in a transaction\n"
  | .notInTransaction => ascii "-ERR no transaction in progress\n"

/-- A session, as the machine sees it: outside, or inside with a list of updates. -/
abbrev Pending := Option (List (Update Bytes Bytes))

/-- What one command does; the machine has no answer to the other commands. -/
def respond (contents : Bytes → Option Bytes) (pending : Pending) (cmd : ParsedCommand) :
    (Bytes → Option Bytes) × Pending × Option Outcome :=
  match cmd.type, pending with
  | .set, none => (Function.update contents cmd.key (some cmd.value), none, some .ok)
  | .set, some us => (contents, some (us ++ [(cmd.key, some cmd.value)]), some .ok)
  | .del, none => (Function.update contents cmd.key none, none, some .ok)
  | .del, some us => (contents, some (us ++ [(cmd.key, none)]), some .ok)
  | .get, none => (contents, none, some (.found (contents cmd.key)))
  | .get, some us => (contents, some us, some (.found (runUpdates us contents cmd.key)))
  | .begin, none => (contents, some [], some .ok)
  | .begin, some us => (contents, some us, some .alreadyInTransaction)
  | .commit, none => (contents, none, some .notInTransaction)
  | .commit, some us => (runUpdates us contents, none, some (.committed us.length))
  | .rollback, none => (contents, none, some .notInTransaction)
  | .rollback, some us => (contents, none, some (.rolledBack us.length))
  | _, pending => (contents, pending, none)

variable {ι : Type} [DecidableEq ι]

/-- What happens between the clients and the store. -/
inductive Event (ι : Type) where
  | connect (i : ι)
  /-- A line, and what the rest of the world does while it is handled. -/
  | line (i : ι) (line : Bytes) (w : World)
  | disconnect (i : ι)

/-- What the clients may think they talk to: one map, and what each of them has yet to commit.
-/
structure Machine (ι : Type) where
  contents : Bytes → Option Bytes
  pending : ι → Pending := fun _ => none
  /-- The answers so far. -/
  outcomes : List (Option Outcome) := []

/-- What the machine does. -/
def Machine.next (m : Machine ι) : Event ι → Machine ι
  | .connect i => { m with pending := Function.update m.pending i none }
  | .line i line _ =>
      let r := respond m.contents (m.pending i) (parse line)
      { contents := r.1
        pending := Function.update m.pending i r.2.1
        outcomes := m.outcomes ++ [r.2.2] }
  | .disconnect i => { m with pending := Function.update m.pending i none }

/-! ## The sessions of a store -/

/-- A store with its sessions. -/
structure State (cfg : StoreConfig) (ι : Type) where
  store : Store cfg
  sessions : ι → Option Session := fun _ => none
  /-- What `handleLine` returned so far. -/
  replies : List (Except LogError Bytes) := []

variable {cfg : StoreConfig}

/-- A client connects, sends a line, or is gone. -/
def step (s : State cfg ι) : Event ι → Option (State cfg ι)
  | .connect i =>
      match s.sessions i with
      | none => some { s with sessions := Function.update s.sessions i (some {}) }
      | some _ => none
  | .line i line w =>
      match s.sessions i with
      | none => none
      | some session =>
          let r := session.handleLine s.store line w
          some
            { store := r.store
              sessions := Function.update s.sessions i (some r.session)
              replies := s.replies ++ [r.reply] }
  | .disconnect i =>
      match s.sessions i with
      | none => none
      | some session =>
          some
            { s with
              store := session.destroy s.store
              sessions := Function.update s.sessions i none }

/-- Any store, with clients that come and go. -/
def system (cfg : StoreConfig) (ι : Type) [DecidableEq ι] : System (State cfg ι) (Event ι) where
  init s := ∃ st, s = { store := st }
  step := step

/-- Nothing goes wrong with the log meanwhile. -/
def Event.Clean : Event ι → Prop
  | .line _ _ w => w.io.Clean
  | _ => True

/-! ## One line -/

/-- What the machine would have for a session. -/
def pendingOf (session : Session) : Pending := session.transaction.map Transaction.updates

/-- An open transaction has not been committed or rolled back. -/
def Live (session : Session) : Prop := ∀ t ∈ session.transaction, t.active = true

/-- The reply is the answer of the machine, if it has one. -/
def Agrees (reply : Except LogError Bytes) (outcome : Option Outcome) : Prop :=
  ∀ o ∈ outcome, reply = .ok o.text

/-- What is left of a call, next to what is left of the command. -/
structure Follows (r : Handled cfg) (m : (Bytes → Option Bytes) × Pending × Option Outcome) :
    Prop where
  contents : r.store.map.contents = m.1
  pending : pendingOf r.session = m.2.1
  live : Live r.session
  reply : Agrees r.reply m.2.2

section Line

variable {session : Session} {st : Store cfg} {w : World} {cmd : ParsedCommand}

theorem destroy_map (t : Transaction) (st : Store cfg) : (t.destroy st).map = st.map := by
  unfold Transaction.destroy Transaction.rollback
  split
  · rfl
  · rfl

/-- A write outside of a transaction. -/
theorem follows_outside (hnone : session.transaction = none) {inside : Transaction → Transaction}
    {outside : Store cfg × Except LogError Unit} (hok : outside.2 = .ok ()) {key : Bytes}
    {value : Option Bytes}
    (hcontents : outside.1.map.contents = Function.update st.map.contents key value) :
    Follows (session.write st inside outside)
      (Function.update st.map.contents key value, none, some .ok) := by
  unfold Session.write
  rw [hnone]
  refine ⟨hcontents, by rw [pendingOf, hnone]; rfl, by simp [Live, hnone], ?_⟩
  intro o ho
  cases ho
  show outside.2.map _ = _
  rw [hok]
  rfl

/-- A write inside of one. -/
theorem follows_inside {t : Transaction} (ht : session.transaction = some t) {mutation : Mutation}
    {inside : Transaction → Transaction} (hinside : inside t = t.push mutation)
    (hactive : t.active = true) {outside : Store cfg × Except LogError Unit} :
    Follows (session.write st inside outside)
      (st.map.contents, some (t.updates ++ [toUpdate mutation]), some .ok) := by
  unfold Session.write
  rw [ht]
  refine ⟨rfl, ?_, ?_, ?_⟩
  · show some (inside t).updates = _
    rw [hinside, Transaction.updates_push]
  · intro t' ht'
    cases ht'
    rw [hinside]
    exact hactive
  · intro o ho
    cases ho
    rfl

/-- A read, and the text of what it found. -/
theorem agrees_found {found value : Option Bytes} (h : found = value) :
    Agrees (.ok (Session.valueReply found)) (some (.found value)) := by
  intro o ho
  cases ho
  rw [h]
  cases value <;> rfl

theorem agrees_text (o : Outcome) : Agrees (.ok o.text) (some o) := by
  intro o' ho
  cases ho
  rfl

/-- A call that leaves the session and the contents as they are. -/
theorem follows_same (hlive : Live session) {pending : Pending}
    (hpending : pendingOf session = pending)
    {st' : Store cfg} (hcontents : st'.map.contents = st.map.contents)
    {reply : Except LogError Bytes} {outcome : Option Outcome} (hreply : Agrees reply outcome)
    {quit : Bool} :
    Follows { session := session, store := st', reply := reply, quit := quit }
      (st.map.contents, pending, outcome) := ⟨hcontents, hpending, hlive, hreply⟩

/-- A command that the machine has no answer to. -/
theorem follows_unanswered (hlive : Live session) {pending : Pending}
    (hpending : pendingOf session = pending) {st' : Store cfg} (hmap : st'.map = st.map)
    {reply : Except LogError Bytes} {quit : Bool} :
    Follows { session := session, store := st', reply := reply, quit := quit }
      (st.map.contents, pending, none) :=
  follows_same hlive hpending (by rw [hmap]) (by simp [Agrees])

/-- A call that ends the transaction. -/
theorem follows_ended {contents : Bytes → Option Bytes} {st' : Store cfg}
    (hcontents : st'.map.contents = contents) (o : Outcome) :
    Follows { session := {}, store := st', reply := .ok o.text } (contents, none, some o) :=
  ⟨hcontents, rfl, by simp [Live], agrees_text o⟩

theorem compact_map (st : Store cfg) (r : Compactor.Rewriting) : (st.compact r).1.map = st.map := by
  unfold Store.compact
  split
  · dsimp only
    split
    · rfl
    · rfl
  · rfl

theorem commit_clean {io : Io} (h : io.Clean) {t : Transaction} (hactive : t.active = true)
    (st : Store cfg) :
    ∃ st', t.commit st io = (st', t.finished, true)
      ∧ st'.map = st.map.applyAtomically t.mutations := by
  obtain ⟨hok, hmap⟩ := Store.commitTransaction_clean h st t.id t.mutations
  refine ⟨_, ?_, hmap⟩
  unfold Transaction.commit
  rw [if_pos hactive]
  split
  · rename_i heq
    rw [heq] at hok
    exact absurd hok (by simp)
  · rename_i heq
    rw [heq]

/-- **One line is answered as the machine answers it.** -/
theorem handleLine_follows (hoff : cfg.maxMemoryBytes = 0) (hwritable : cfg.readOnly = false)
    (hlive : Live session) (hio : w.io.Clean) (st : Store cfg) (line : Bytes) :
    Follows (session.handleLine st line w)
      (respond st.map.contents (pendingOf session) (parse line)) := by
  unfold Session.handleLine
  generalize parse line = cmd
  obtain ⟨type, key, value, error⟩ := cmd
  rw [if_neg (by simp [hwritable]), if_neg (by simp [hwritable])]
  cases ht : session.transaction with
  | none =>
      have hpending : pendingOf session = none := by rw [pendingOf, ht]; rfl
      rw [hpending]
      cases type with
      | set =>
          obtain ⟨hok, hmap⟩ := Store.set_clean hio st key value
          refine follows_outside ht hok ?_
          rw [hmap]
          exact ShardedMap.contents_set hoff st.map key value
      | del =>
          obtain ⟨hok, hmap⟩ := Store.del_clean hio st key
          refine follows_outside ht (by rw [hok]; rfl) ?_
          rw [hmap]
          exact ShardedMap.contents_del st.map key
      | get =>
          refine follows_same hlive hpending ?_ (agrees_found (ShardedMap.get_result st.map key))
          exact (congrArg _ (Store.get_store st key).1).trans (ShardedMap.contents_get st.map key)
      | begin =>
          refine ⟨rfl, rfl, ?_, agrees_text .ok⟩
          intro t ht
          cases ht
          rfl
      | compact => exact follows_unanswered hlive hpending (compact_map st w.rewriting)
      | commit => exact follows_same hlive hpending rfl (agrees_text .notInTransaction)
      | rollback => exact follows_same hlive hpending rfl (agrees_text .notInTransaction)
      | stats => exact follows_unanswered hlive hpending rfl
      | quit => exact follows_unanswered hlive hpending rfl
      | invalid => exact follows_unanswered hlive hpending rfl
  | some t =>
      have hpending : pendingOf session = some t.updates := by rw [pendingOf, ht]; rfl
      have hactive := hlive t ht
      rw [hpending]
      cases type with
      | set =>
          exact @follows_inside cfg session st t ht { key := key, value := value } _
            (by simp [Transaction.set, hactive]) hactive _
      | del =>
          exact @follows_inside cfg session st t ht { erase := true, key := key } _
            (by simp [Transaction.del, hactive]) hactive _
      | get =>
          exact follows_same hlive hpending (t.contents_get st key)
            (agrees_found (t.get_result st key))
      | begin => exact follows_same hlive hpending rfl (agrees_text .alreadyInTransaction)
      | commit =>
          -- all updates at once, where the machine does one after another
          obtain ⟨st', hcommit, hmap⟩ := commit_clean hio hactive st
          have hcontents : st'.map.contents = runUpdates t.updates st.map.contents := by
            rw [hmap]
            exact ShardedMap.contents_applyAtomically hoff st.map t.mutations
          dsimp only
          rw [hcommit, ← t.length_updates]
          exact follows_ended hcontents (.committed _)
      | rollback =>
          dsimp only
          rw [← t.length_updates, Transaction.rollback, if_pos hactive]
          exact follows_ended rfl (.rolledBack _)
      | compact => exact follows_unanswered hlive hpending (compact_map st w.rewriting)
      | stats => exact follows_unanswered hlive hpending rfl
      | quit => exact follows_unanswered hlive hpending rfl
      | invalid => exact follows_unanswered hlive hpending rfl

end Line

/-! ## Every run -/

/-- The store and its sessions, next to the machine. -/
structure MatchesMachine (s : State cfg ι) (m : Machine ι) : Prop where
  contents : s.store.map.contents = m.contents
  pending : ∀ i, (s.sessions i).bind pendingOf = m.pending i
  live : ∀ i, ∀ session ∈ s.sessions i, Live session
  replies : List.Forall₂ Agrees s.replies m.outcomes

section MatchesMachine

variable {s s' : State cfg ι} {m : Machine ι}

/-- One session comes, goes or is given something else to hold. -/
theorem matchesMachine_update (h : MatchesMachine s m) (i : ι) (session : Option Session)
    {pending : Pending}
    (hpending : session.bind pendingOf = pending) (hlive : ∀ x ∈ session, Live x) :
    (∀ j, (Function.update s.sessions i session j).bind pendingOf
        = Function.update m.pending i pending j)
      ∧ ∀ j, ∀ x ∈ Function.update s.sessions i session j, Live x := by
  refine ⟨fun j => ?_, fun j x hx => ?_⟩
  · by_cases hj : j = i
    · subst hj
      rw [Function.update_self, Function.update_self, hpending]
    · rw [Function.update_of_ne hj, Function.update_of_ne hj, h.pending]
  · by_cases hj : j = i
    · subst hj
      rw [Function.update_self] at hx
      exact hlive x hx
    · rw [Function.update_of_ne hj] at hx
      exact h.live j x hx

theorem matchesMachine_step (hoff : cfg.maxMemoryBytes = 0) (hwritable : cfg.readOnly = false)
    (h : MatchesMachine s m) {e : Event ι} (hclean : e.Clean) (hs : step s e = some s') :
    MatchesMachine s' (m.next e) := by
  cases e with
  | connect i =>
      rw [step] at hs
      split at hs
      · cases hs
        obtain ⟨hpending, hlive⟩ := matchesMachine_update h i (some {}) rfl (by simp [Live])
        exact ⟨h.contents, hpending, hlive, h.replies⟩
      · exact absurd hs (by simp)
  | line i line w =>
      rw [step] at hs
      split at hs
      · exact absurd hs (by simp)
      · rename_i session hi
        cases hs
        have hfollows :=
          handleLine_follows hoff hwritable (h.live i session hi) hclean s.store line
        have hbefore : pendingOf session = m.pending i := by
          rw [← h.pending, hi]
          rfl
        rw [h.contents, hbefore] at hfollows
        obtain ⟨hpending, hlive⟩ := matchesMachine_update h i (some _) hfollows.pending
          (by rintro x ⟨⟩; exact hfollows.live)
        exact ⟨hfollows.contents, hpending, hlive,
          List.rel_append h.replies (.cons hfollows.reply .nil)⟩
  | disconnect i =>
      rw [step] at hs
      split at hs
      · exact absurd hs (by simp)
      · rename_i session hi
        cases hs
        obtain ⟨hpending, hlive⟩ := matchesMachine_update h i none rfl (by simp)
        refine ⟨?_, hpending, hlive, h.replies⟩
        -- a transaction that is open is rolled back, and has not touched the map
        show (session.destroy s.store).map.contents = m.contents
        rw [← h.contents]
        unfold Session.destroy
        split
        · rw [destroy_map]
        · rfl

end MatchesMachine

/--
**Sessions are what they are for**: whatever lines come, from whichever sessions and in
whatever order, and whoever leaves in between, the contents of the store are those of
the machine, and so is every reply to a command that the machine knows.
-/
theorem sessions_refine (hoff : cfg.maxMemoryBytes = 0) (hwritable : cfg.readOnly = false)
    {st : Store cfg} {events : List (Event ι)} (hclean : ∀ e ∈ events, e.Clean) {s : State cfg ι}
    (hrun : (system cfg ι).run { store := st } events = some s) :
    s.store.map.contents
        = (events.foldl Machine.next { contents := st.map.contents }).contents
      ∧ List.Forall₂ Agrees s.replies
        (events.foldl Machine.next { contents := st.map.contents }).outcomes := by
  have hstart : MatchesMachine ({ store := st } : State cfg ι) { contents := st.map.contents } :=
    ⟨rfl, fun _ => rfl, by simp, .nil⟩
  have h := System.run_simulates (R := MatchesMachine) (p := Event.Clean)
    (fun _ _ _ _ h hclean hs => matchesMachine_step hoff hwritable h hclean hs) hstart hclean hrun
  exact ⟨h.contents, h.replies⟩

/-- Two sessions; one commits over what the other has written, and leaves with a transaction
open. -/
def interleaved : List (Event Bool) :=
  [.connect false, .connect true, .line false (ascii "begin") {}, .line false (ascii "SET a 1") {},
    .line true (ascii "SET a 2") {}, .line false (ascii "GET a") {}, .line true (ascii "GET a") {},
    .line false (ascii "DEL b") {}, .line false (ascii "COMMIT") {}, .line true (ascii "GET a") {},
    .line false (ascii "BEGIN") {}, .line false (ascii "DEL a") {}, .disconnect false,
    .line true (ascii "GET a") {}]

theorem sessions_refine_interleaved :
    ∃ s, (system standalone Bool).run { store := Store.openOn standalone [] } interleaved = some s
      ∧ List.Forall₂ Agrees s.replies
        [some .ok, some .ok, some .ok, some (.found (some [49])), some (.found (some [50])),
          some .ok, some (.committed 2), some (.found (some [49])), some .ok, some .ok,
          some (.found (some [49]))] := by
  have hsome : ((system standalone Bool).run { store := Store.openOn standalone [] }
      interleaved).isSome = true := by decide +kernel
  obtain ⟨s, hrun⟩ := Option.isSome_iff_exists.mp hsome
  have houtcomes : (interleaved.foldl Machine.next
      { contents := (Store.openOn standalone []).map.contents }).outcomes
      = [some .ok, some .ok, some .ok, some (.found (some [49])), some (.found (some [50])),
          some .ok, some (.committed 2), some (.found (some [49])), some .ok, some .ok,
          some (.found (some [49]))] := by decide +kernel
  refine ⟨s, hrun, ?_⟩
  rw [← houtcomes]
  have hclean : ∀ e ∈ interleaved, e.Clean := by
    simp only [interleaved, List.forall_mem_cons]
    simp [Event.Clean, Io.Clean]
  exact (sessions_refine rfl rfl hclean hrun).2

end KvStore.Sessions
