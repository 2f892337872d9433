import KvStore.Repl.Threads

/-!
# Nobody sleeps through what it waits for

A session's thread reads where the log ends, ships up to there, and then sleeps in `poll`.
What is appended after it has read goes unnoticed, until there is a byte in its pipe. The
byte is written after the append, and it stays in the pipe when the thread is not in `poll`
just then; the thread empties the pipe before it reads the end of the log again. So as long
as nobody is about to write a byte, a thread that sleeps over an empty pipe has shipped
everything. That is so for a session whose offset and file belong to the log the store has.
One that was accepted around a compaction may have the offset of the old log, and is in
`sessions_` too late for `onLogReplaced` to stop it: it sleeps, and ships nothing.

A client thread in sync mode looks at what the sessions have acknowledged and goes to sleep
when that is not enough. What it looks at may change behind its back, before it sleeps.
Whoever changes it needs `mutex_` after that and before it notifies, and `mutex_` is not to
be had until the client thread sleeps.
-/

namespace KvStore.Repl.Threads

open Lib
open Cluster (ReplMode)

variable {m w : Nat} {mode : ReplMode} {capacity : Nat} {s s' : State m w}

/-! ## What the threads can do -/

/-- How far a session's thread has come, or is about to come, before it sleeps. -/
def Place.aim (session : Session) : Place → Option Nat
  | .polling => some session.sentOffset
  | .shipping target => some target
  | _ => none

@[simp] theorem aim_afterPipe (session : Session) (acks : Bool) :
    (afterPipe acks).aim session = none := by
  cases acks <;> rfl

/-- The client thread has appended, and is still to poke this session's thread. -/
def Writer.owes (k : Fin m) : Writer m → Prop
  | .appended _ | .noted _ => True
  | .waking _ rest => k ∈ rest
  | _ => False

/-- What a step of a client thread comes to. -/
inductive WriteEffect (capacity : Nat) (s : State m w) (t : Fin w) : State m w → Prop
  | appended {n endOffset : Nat} (ht : s.writers t = .outside) (hle : s.logOffset ≤ n) :
      WriteEffect capacity s t (State.setWriter { s with logOffset := n } t (.appended endOffset))
  | noted {endOffset : Nat} (ht : s.writers t = .appended endOffset) :
      WriteEffect capacity s t (s.setWriter t (.noted endOffset))
  | locked {endOffset : Nat} (ht : s.writers t = .noted endOffset) :
      WriteEffect capacity s t (s.setWriter t (.waking endOffset s.registered))
  | poked {endOffset : Nat} {k : Fin m} {rest : List (Fin m)}
      (ht : s.writers t = .waking endOffset (k :: rest)) :
      WriteEffect capacity s t
        ((s.modify k (Served.poke capacity)).setWriter t (.waking endOffset rest))
  | unlocked {endOffset : Nat} (ht : s.writers t = .waking endOffset []) :
      WriteEffect capacity s t (s.setWriter t (.woken endOffset))
  | entered {endOffset : Nat} {late : Bool}
      (ht : s.writers t = .woken endOffset ∨ s.writers t = .roused endOffset late)
      (hgo : s.stop = .never) :
      WriteEffect capacity s t (s.setWriter t (.checking endOffset s.registered late))
  | looked {endOffset : Nat} {k : Fin m} {rest : List (Fin m)} {late : Bool}
      (ht : s.writers t = .checking endOffset (k :: rest) late)
      (hnot : ∀ v, s.sessions k = some v → v.session.acked < endOffset) :
      WriteEffect capacity s t (s.setWriter t (.checking endOffset rest late))
  | slept {endOffset : Nat} (ht : s.writers t = .checking endOffset [] false) :
      WriteEffect capacity s t (s.setWriter t (.asleep endOffset))
  | roused {endOffset : Nat} {late : Bool} (ht : s.writers t = .asleep endOffset) :
      WriteEffect capacity s t (s.setWriter t (.roused endOffset late))
  /-- It returns to its client. -/
  | left (ackTimeouts syncDegraded : Nat) (ht : ∀ k, ¬ (s.writers t).owes k) :
      WriteEffect capacity s t (State.setWriter
        { s with ackTimeouts := ackTimeouts, syncDegraded := syncDegraded } t .outside)

theorem enterCheck_effect {t : Fin w} {endOffset : Nat} {late : Bool}
    (ht : s.writers t = .woken endOffset ∨ s.writers t = .roused endOffset late) :
    WriteEffect capacity s t (enterCheck s t endOffset late) := by
  unfold enterCheck
  split
  · rename_i hgo
    exact .entered ht hgo
  · refine .left s.ackTimeouts s.syncDegraded fun k => ?_
    rcases ht with ht | ht <;> rw [ht] <;> exact id

theorem stepWrite_effect {t : Fin w} {a : Write} (hs : stepWrite mode capacity s t a = some s') :
    WriteEffect capacity s t s' := by
  cases a with
  | append n =>
      rw [stepWrite] at hs
      split at hs
      · rename_i ht
        split at hs
        · cases hs
          exact .appended ht (Nat.le_add_right ..)
        · exact absurd hs (by simp)
      · exact absurd hs (by simp)
  | note =>
      rw [stepWrite] at hs
      split at hs
      · rename_i ht
        split at hs
        · exact absurd hs (by simp)
        · cases hs
          exact .noted ht
      · exact absurd hs (by simp)
  | lock =>
      rw [stepWrite] at hs
      split at hs
      · rename_i ht
        split at hs
        · exact absurd hs (by simp)
        · cases hs
          exact .locked ht
      · exact absurd hs (by simp)
  | poke =>
      rw [stepWrite] at hs
      split at hs
      · rename_i ht
        cases hs
        exact .poked ht
      · exact absurd hs (by simp)
  | unlock =>
      rw [stepWrite] at hs
      split at hs
      · rename_i ht
        cases hs
        exact .unlocked ht
      · exact absurd hs (by simp)
  | wait =>
      rw [stepWrite] at hs
      split at hs
      · rename_i ht
        have howes : ∀ k, ¬ (s.writers t).owes k := fun k => by rw [ht]; exact id
        split at hs
        · cases hs
          exact .left s.ackTimeouts s.syncDegraded howes
        · split at hs
          · exact absurd hs (by simp)
          · split at hs
            · cases hs
              exact .left s.ackTimeouts (s.syncDegraded + 1) howes
            · cases hs
              exact enterCheck_effect (.inl ht)
      · exact absurd hs (by simp)
  | look =>
      rw [stepWrite] at hs
      split at hs
      · rename_i k rest late ht
        split at hs
        · cases hs
          exact .left s.ackTimeouts s.syncDegraded fun k => by rw [ht]; exact id
        · rename_i hnot
          cases hs
          refine .looked ht fun v hv => ?_
          simpa [hv] using hnot
      · exact absurd hs (by simp)
  | sleep =>
      rw [stepWrite] at hs
      split at hs
      · rename_i late ht
        cases late with
        | true =>
            cases hs
            exact .left (s.ackTimeouts + 1) s.syncDegraded fun k => by rw [ht]; exact id
        | false =>
            cases hs
            exact .slept ht
      · exact absurd hs (by simp)
  | stir =>
      rw [stepWrite] at hs
      split at hs
      · rename_i ht
        cases hs
        exact .roused ht
      · exact absurd hs (by simp)
  | expire =>
      rw [stepWrite] at hs
      split at hs
      · rename_i ht
        cases hs
        exact .roused ht
      · exact absurd hs (by simp)
  | recheck =>
      rw [stepWrite] at hs
      split at hs
      · rename_i ht
        split at hs
        · exact absurd hs (by simp)
        · cases hs
          exact enterCheck_effect (.inr ht)
      · exact absurd hs (by simp)

/-- What a step of a session's thread comes to. -/
inductive ServeEffect (s : State m w) (k : Fin m) (v : Served) : State m w → Prop
  /-- It goes on, and has no more before it than the end of the log. -/
  | went {place : Place} (hfrom : v.place ≠ .noting ∧ v.place ≠ .notifying)
      (hrun : v.place.finished = false)
      (haim : ∀ o, place.aim v.session = some o →
        s.logOffset ≤ o ∨ ∃ o', v.place.aim v.session = some o' ∧ o' ≤ o)
      (htarget : ∀ target, place = .shipping target → target = s.logOffset) :
      ServeEffect s k v (s.setSession k { v with place := place })
  | shipped {n target : Nat} (hplace : v.place = .shipping target)
      (hle : v.session.sentOffset + n ≤ target) :
      ServeEffect s k v (s.setSession k
        { v with session := { v.session with sentOffset := v.session.sentOffset + n } })
  | drained {acks : Bool} {place : Place} {pipe : Nat} (hplace : v.place = .draining acks)
      (haim : place.aim v.session = none) :
      ServeEffect s k v (s.setSession k { v with pipe := pipe, place := place })
  | read {session : Session} {place : Place} (hplace : v.place = .reading)
      (hack : place = .noting ∨ session.acked = v.session.acked)
      (haim : place.aim session = none) (hsent : session.sentOffset = v.session.sentOffset) :
      ServeEffect s k v (s.setSession k { v with session := session, place := place })
  | noted (hplace : v.place = .noting) (hfree : ¬ s.locked) :
      ServeEffect s k v (s.setSession k { v with place := .notifying })
  | notified (hplace : v.place = .notifying) :
      ServeEffect s k v (s.notifyAll.setSession k { v with place := .top })
  | left (hplace : v.place = .closing) :
      ServeEffect s k v (s.notifyAll.setSession k { v with place := .ended })

/-- Where it goes there is nothing before it. -/
theorem ServeEffect.aside {k : Fin m} {v : Served} {place : Place}
    (hfrom : v.place ≠ .noting ∧ v.place ≠ .notifying) (hrun : v.place.finished = false)
    (haim : place.aim v.session = none) :
    ServeEffect s k v (s.setSession k { v with place := place }) := by
  refine .went hfrom hrun (fun o ho => absurd (haim.symm.trans ho) (by simp)) ?_
  rintro target rfl
  exact absurd haim (by simp [Place.aim])

/-- `acked` is what it was when `drainAcks` gives up, or has seen no acknowledgement. -/
theorem drainAcks_acked {session : Session} {bytes : Bytes}
    (h : (session.drainAcks bytes).2 = false ∨ sawAck session bytes = false) :
    (session.drainAcks bytes).1.acked = session.acked := by
  unfold Session.drainAcks sawAck at *
  dsimp only at h ⊢
  split
  · rfl
  · rename_i hroom
    rw [if_neg hroom] at h
    split
    · rfl
    · rename_i highest hsome
      rw [hsome] at h
      simp at h

theorem drainAcks_sentOffset (session : Session) (bytes : Bytes) :
    (session.drainAcks bytes).1.sentOffset = session.sentOffset := by
  unfold Session.drainAcks
  dsimp only
  split
  · rfl
  · split <;> rfl

theorem stepServe_effect {k : Fin m} {v : Served} {a : Serve}
    (hs : stepServe s k v a = some s') : ServeEffect s k v s' := by
  cases a with
  | start =>
      rw [stepServe] at hs
      split at hs
      · rename_i hplace
        cases hs
        exact .aside (by simp [hplace]) (by rw [hplace]; rfl) rfl
      · exact absurd hs (by simp)
  | check =>
      rw [stepServe] at hs
      split at hs
      · rename_i hplace
        cases hs
        refine .aside (by simp [hplace]) (by rw [hplace]; rfl) ?_
        split <;> rfl
      · exact absurd hs (by simp)
  | look =>
      rw [stepServe] at hs
      split at hs
      · rename_i hplace
        cases hs
        refine .went (by simp [hplace]) (by rw [hplace]; rfl) (fun o ho => .inl ?_) fun o ho => ?_
        · exact Nat.le_of_eq (Option.some.inj ho)
        · exact (Place.shipping.inj ho).symm
      · exact absurd hs (by simp)
  | ship n =>
      rw [stepServe] at hs
      split at hs
      · rename_i target hplace
        split at hs
        · split at hs
          · cases hs
            exact .aside (by simp [hplace]) (by rw [hplace]; rfl) rfl
          · split at hs
            · rename_i hn
              cases hs
              exact .shipped hplace (by omega)
            · exact absurd hs (by simp)
        · exact absurd hs (by simp)
      · exact absurd hs (by simp)
  | rest =>
      rw [stepServe] at hs
      split at hs
      · rename_i target hplace
        split at hs
        · rename_i hle
          cases hs
          -- everything up to the target has been shipped
          refine .went (by simp [hplace]) (by rw [hplace]; rfl)
            (fun o ho => .inr ⟨target, ?_, ?_⟩) (by simp)
          · rw [hplace]
            rfl
          · exact Nat.le_trans hle (Nat.le_of_eq (Option.some.inj ho))
        · exact absurd hs (by simp)
      · exact absurd hs (by simp)
  | poll acks =>
      rw [stepServe] at hs
      split at hs
      · rename_i hplace
        cases hs
        refine .aside (by simp [hplace]) (by rw [hplace]; rfl) ?_
        split
        · rfl
        · exact aim_afterPipe _ _
      · exact absurd hs (by simp)
  | drain =>
      rw [stepServe] at hs
      split at hs
      · rename_i acks hplace
        cases hs
        refine .drained hplace ?_
        split
        · exact aim_afterPipe _ _
        · rfl
      · exact absurd hs (by simp)
  | read bytes =>
      rw [stepServe] at hs
      split at hs
      · rename_i hplace
        split at hs
        · cases hs
          have hsent := drainAcks_sentOffset v.session bytes
          cases hgo : (v.session.drainAcks bytes).2 with
          | false => exact .read hplace (.inr (drainAcks_acked (.inl hgo))) rfl hsent
          | true =>
              cases hsaw : sawAck v.session bytes with
              | false => exact .read hplace (.inr (drainAcks_acked (.inr hsaw))) rfl hsent
              | true => exact .read hplace (.inl rfl) rfl hsent
        · exact absurd hs (by simp)
      · exact absurd hs (by simp)
  | interrupt =>
      rw [stepServe] at hs
      split at hs
      · rename_i hplace
        cases hs
        exact .aside (by simp [hplace]) (by rw [hplace]; rfl) rfl
      · rename_i hplace
        cases hs
        exact .aside (by simp [hplace]) (by rw [hplace]; rfl) rfl
      · exact absurd hs (by simp)
  | note =>
      rw [stepServe] at hs
      split at hs
      · rename_i hplace
        split at hs
        · exact absurd hs (by simp)
        · rename_i hfree
          cases hs
          exact .noted hplace hfree
      · exact absurd hs (by simp)
  | notify =>
      rw [stepServe] at hs
      split at hs
      · rename_i hplace
        cases hs
        exact .notified hplace
      · exact absurd hs (by simp)
  | fail =>
      rw [stepServe] at hs
      split at hs
      · rename_i hplace
        cases hs
        exact .aside (by simp [hplace]) (by rw [hplace]; rfl) rfl
      · rename_i hplace
        cases hs
        exact .aside (by simp [hplace]) (by rw [hplace]; rfl) rfl
      · rename_i hplace
        cases hs
        exact .aside (by simp [hplace]) (by rw [hplace]; rfl) rfl
      · exact absurd hs (by simp)
  | leave =>
      rw [stepServe] at hs
      split at hs
      · rename_i hplace
        cases hs
        exact .left hplace
      · exact absurd hs (by simp)

/-- What a step of one of the threads comes to. -/
inductive Effect (capacity : Nat) (s : State m w) (a : Act m w) : State m w → Prop
  | wrote {s' : State m w} {t : Fin w} (hw : WriteEffect capacity s t s') :
      Effect capacity s a s'
  | served {s' : State m w} {k : Fin m} {v : Served} (hv : s.sessions k = some v)
      (hm : ServeEffect s k v s') : Effect capacity s a s'
  | unsynced {t : Fin w} {n length : Nat} (ha : a = .appendUnsynced t n)
      (hle : s.logOffset ≤ length) : Effect capacity s a { s with logOffset := length }
  | greeted {start : Nat} (hle : start ≤ s.logOffset) :
      Effect capacity s a { s with accept := .greeted start s.log }
  | opened {start origin : Nat} (haccept : s.accept = .greeted start origin) :
      Effect capacity s a { s with accept := .opened start origin s.path }
  | refused : Effect capacity s a { s with accept := .idle }
  | registered {k : Fin m} {start origin file : Nat}
      (haccept : s.accept = .opened start origin file) (hfree : ¬ s.locked)
      (hnew : s.sessions k = none) : Effect capacity s a (s.enlist k start origin file)
  | reaped :
      Effect capacity s a { s with registered := s.registered.filter fun k => !s.finished k }
  | renamed {length : Nat} (hidle : s.compaction = .idle) :
      Effect capacity s a { s with path := s.path + 1, compaction := .renamed length }
  | reopened {length : Nat} (hrenamed : s.compaction = .renamed length) :
      Effect capacity s a
        { s with logOffset := length, log := s.path, closed := false, compaction := .reopened }
  | unopened {length : Nat} (hrenamed : s.compaction = .renamed length) :
      Effect capacity s a { s with closed := true, compaction := .idle }
  | snapshot (hreopened : s.compaction = .reopened) :
      Effect capacity s a { s with compaction := .stopping s.registered }
  | halted {k : Fin m} {rest : List (Fin m)} (hstopping : s.compaction = .stopping (k :: rest)) :
      Effect capacity s a { s.modify k (Served.halt capacity) with compaction := .stopping rest }
  | released (hstopping : s.compaction = .stopping []) :
      Effect capacity s a { s with compaction := .idle }
  | stop (hfree : ¬ s.locked) : Effect capacity s a { s with stop := .flagged s.registered }
  | stopNotified {rest : List (Fin m)} (hflagged : s.stop = .flagged rest) :
      Effect capacity s a { s.notifyAll with stop := .stopping rest }
  | stopHalted {k : Fin m} {rest : List (Fin m)} (hstopping : s.stop = .stopping (k :: rest)) :
      Effect capacity s a { s.modify k (Served.halt capacity) with stop := .stopping rest }

/-- The step is not an append of which the `fsync` fails. -/
def NoSyncFails (_ : State m w) : Act m w → Prop
  | .appendUnsynced .. => False
  | _ => True

instance (s : State m w) (a : Act m w) : Decidable (NoSyncFails s a) :=
  match a with
  | .appendUnsynced .. => inferInstanceAs (Decidable False)
  | .write .. | .serve .. | .greet _ | .openLog | .register _ | .refuse | .reap | .rename _
  | .reopen | .reopenFails | .snapshot | .haltReplaced | .release | .stop | .stopNotify
  | .haltStopped => inferInstanceAs (Decidable True)

theorem step_effect {a : Act m w} (hs : step mode capacity s a = some s') :
    Effect capacity s a s' := by
  cases a with
  | write t a => exact .wrote (stepWrite_effect hs)
  | serve k a =>
      obtain ⟨v, hv, hgo⟩ := Option.bind_eq_some_iff.mp hs
      exact .served hv (stepServe_effect hgo)
  | appendUnsynced t n =>
      rw [step] at hs
      split at hs
      · cases hs
        exact .unsynced rfl (Nat.le_add_right ..)
      · exact absurd hs (by simp)
  | greet start =>
      rw [step] at hs
      split at hs
      · rename_i hgo
        cases hs
        exact .greeted hgo.2.2
      · exact absurd hs (by simp)
  | openLog =>
      rw [step] at hs
      split at hs
      · rename_i haccept
        cases hs
        exact .opened haccept
      · exact absurd hs (by simp)
  | register k =>
      rw [step] at hs
      split at hs
      · rename_i haccept
        split at hs
        · exact absurd hs (by simp)
        · rename_i hgo
          cases hs
          refine .registered haccept (fun hlocked => hgo (.inl hlocked)) ?_
          by_contra hne
          exact hgo (.inr (.inr hne))
      · exact absurd hs (by simp)
  | refuse =>
      rw [step] at hs
      split at hs
      · exact absurd hs (by simp)
      · cases hs
        exact .refused
  | reap =>
      rw [step] at hs
      split at hs
      · exact absurd hs (by simp)
      · cases hs
        exact .reaped
  | rename length =>
      rw [step] at hs
      split at hs
      · rename_i hgo
        cases hs
        exact .renamed hgo.1
      · exact absurd hs (by simp)
  | reopen =>
      rw [step] at hs
      split at hs
      · rename_i hrenamed
        cases hs
        exact .reopened hrenamed
      · exact absurd hs (by simp)
  | reopenFails =>
      rw [step] at hs
      split at hs
      · rename_i hrenamed
        cases hs
        exact .unopened hrenamed
      · exact absurd hs (by simp)
  | snapshot =>
      rw [step] at hs
      split at hs
      · rename_i hreopened
        split at hs
        · exact absurd hs (by simp)
        · cases hs
          exact .snapshot hreopened
      · exact absurd hs (by simp)
  | haltReplaced =>
      rw [step] at hs
      split at hs
      · rename_i hstopping
        cases hs
        exact .halted hstopping
      · exact absurd hs (by simp)
  | release =>
      rw [step] at hs
      split at hs
      · rename_i hstopping
        cases hs
        exact .released hstopping
      · exact absurd hs (by simp)
  | stop =>
      rw [step] at hs
      split at hs
      · exact absurd hs (by simp)
      · rename_i hgo
        cases hs
        exact .stop fun hlocked => hgo (.inl hlocked)
  | stopNotify =>
      rw [step] at hs
      split at hs
      · rename_i hflagged
        cases hs
        exact .stopNotified hflagged
      · exact absurd hs (by simp)
  | haltStopped =>
      rw [step] at hs
      split at hs
      · rename_i hstopping
        cases hs
        exact .stopHalted hstopping
      · exact absurd hs (by simp)

/-! ## Sessions keep up with the log -/

/-- A compaction has replaced the log, and is still to stop this session. -/
def Compaction.covers (k : Fin m) : Compaction m → Prop
  | .idle | .renamed _ => False
  | .reopened => True
  | .stopping rest => k ∈ rest

/-- Somebody is about to wake up the session's thread. -/
def State.Due (s : State m w) (k : Fin m) : Prop :=
  (∃ t, (s.writers t).owes k) ∨ s.compaction.covers k

/-- A session whose thread runs is in `sessions_`; and where its thread has shipped, or is about
to ship, less than there is, somebody wakes it up. -/
structure SessionsKeepUp (s : State m w) : Prop where
  listed : ∀ {k v}, s.sessions k = some v → v.place.finished = false → k ∈ s.registered
  caught : ∀ {k v o}, s.sessions k = some v → v.place.aim v.session = some o →
    v.stopping = true ∨ 0 < v.pipe ∨ s.Due k ∨ s.logOffset ≤ o

theorem running_of_aim {session : Session} {place : Place} {o : Nat}
    (h : place.aim session = some o) : place.finished = false := by
  cases place <;> first | rfl | exact absurd h (by simp [Place.aim])

theorem ne_shipping_of_aim {session : Session} {place : Place} (h : place.aim session = none)
    {target : Nat} : place ≠ .shipping target := by
  rintro rfl
  exact absurd h (by simp [Place.aim])

/-- What another thread does to a session leaves it where it is. -/
structure SamePlace (v v' : Served) : Prop where
  place : v'.place = v.place
  session : v'.session = v.session
  start : v'.start = v.start
  log : v'.origin = v.origin ∧ v'.file = v.file ∧ v'.listed = v.listed
  stopping : v.stopping = true → v'.stopping = true
  pipe : 0 < v.pipe → 0 < v'.pipe

theorem SamePlace.refl (v : Served) : SamePlace v v :=
  ⟨rfl, rfl, rfl, ⟨rfl, rfl, rfl⟩, id, id⟩

/-- A step that leaves the sessions' threads where they are keeps the invariant, if whoever was
about to wake one of them up has done so, or is still about to. -/
theorem SessionsKeepUp.frame (h : SessionsKeepUp s)
    (hsessions : ∀ {k v'}, s'.sessions k = some v' → ∃ v, s.sessions k = some v ∧ SamePlace v v')
    (hlisted : ∀ {k v}, s.sessions k = some v → v.place.finished = false → k ∈ s.registered →
      k ∈ s'.registered)
    (hlog : s'.logOffset = s.logOffset ∨ ∀ k, s'.Due k)
    (hdue : ∀ {k v'}, s'.sessions k = some v' → k ∈ s.registered → s.Due k →
      v'.stopping = true ∨ 0 < v'.pipe ∨ s'.Due k) :
    SessionsKeepUp s' := by
  refine ⟨fun {k v'} hv' hrun => ?_, fun {k v' o} hv' haim => ?_⟩
  · obtain ⟨v, hv, hsame⟩ := hsessions hv'
    rw [hsame.place] at hrun
    exact hlisted hv hrun (h.listed hv hrun)
  · obtain ⟨v, hv, hsame⟩ := hsessions hv'
    rw [hsame.place, hsame.session] at haim
    rcases h.caught hv haim with hs | hp | hd | hle
    · exact .inl (hsame.stopping hs)
    · exact .inr (.inl (hsame.pipe hp))
    · rcases hdue hv' (h.listed hv (running_of_aim haim)) hd with hs | hp | hd
      · exact .inl hs
      · exact .inr (.inl hp)
      · exact .inr (.inr (.inl hd))
    · rcases hlog with hlog | hall
      · exact .inr (.inr (.inr (by rw [hlog]; exact hle)))
      · exact .inr (.inr (.inl (hall k)))

/-- A step that does nothing to the sessions and to the log. -/
theorem SessionsKeepUp.aside (h : SessionsKeepUp s) (hsessions : s'.sessions = s.sessions)
    (hregistered : s'.registered = s.registered) (hlog : s'.logOffset = s.logOffset)
    (hdue : ∀ k ∈ s.registered, s.Due k → s'.Due k) : SessionsKeepUp s' := by
  refine h.frame (fun {k v'} hv' => ⟨v', ?_, .refl v'⟩) (fun _ _ hk => ?_) (.inl hlog)
    fun {k v'} _ hk hd => .inr (.inr (hdue k hk hd))
  · rw [← hsessions]
    exact hv'
  · rw [hregistered]
    exact hk

theorem due_setWriter {t : Fin w} {x : Writer m} {k : Fin m} (h : s.Due k)
    (howes : (s.writers t).owes k → x.owes k) : (s.setWriter t x).Due k := by
  rcases h with ⟨t', ht'⟩ | hcovers
  · by_cases heq : t' = t
    · subst heq
      exact .inl ⟨t', by rw [State.setWriter_self]; exact howes ht'⟩
    · exact .inl ⟨t', by rw [State.setWriter_of_ne heq]; exact ht'⟩
  · exact .inr hcovers

/-- A client thread goes on, and owes no less than it did. -/
theorem SessionsKeepUp.setWriter (h : SessionsKeepUp s) {t : Fin w} {x : Writer m}
    (howes : ∀ k ∈ s.registered, (s.writers t).owes k → x.owes k) :
    SessionsKeepUp (s.setWriter t x) :=
  h.aside rfl rfl rfl fun k hk hd => due_setWriter hd (howes k hk)

theorem modify_samePlace {k k' : Fin m} {f : Served → Served} {v' : Served}
    (hf : ∀ v, SamePlace v (f v)) (h : (s.modify k f).sessions k' = some v') :
    ∃ v, s.sessions k' = some v ∧ SamePlace v v' := by
  by_cases heq : k' = k
  · subst heq
    rw [State.modify_self] at h
    obtain ⟨v, hv, rfl⟩ := Option.map_eq_some_iff.mp h
    exact ⟨v, hv, hf v⟩
  · rw [State.modify_of_ne heq] at h
    exact ⟨v', h, .refl v'⟩

theorem samePlace_poke (hcap : 0 < capacity) (v : Served) : SamePlace v (v.poke capacity) := by
  refine ⟨rfl, rfl, rfl, ⟨rfl, rfl, rfl⟩, id, fun _ => ?_⟩
  show 0 < min (v.pipe + 1) capacity
  omega

theorem samePlace_halt (hcap : 0 < capacity) (v : Served) : SamePlace v (v.halt capacity) :=
  ⟨rfl, rfl, rfl, ⟨rfl, rfl, rfl⟩, fun _ => rfl, (samePlace_poke hcap v).pipe⟩

theorem modify_at {k : Fin m} {f : Served → Served} {v' : Served}
    (h : (s.modify k f).sessions k = some v') : ∃ v, v' = f v := by
  rw [State.modify_self] at h
  obtain ⟨v, -, rfl⟩ := Option.map_eq_some_iff.mp h
  exact ⟨v, rfl⟩

theorem keepUp_wrote (hcap : 0 < capacity) (h : SessionsKeepUp s) {t : Fin w}
    (hw : WriteEffect capacity s t s') :
    SessionsKeepUp s' := by
  cases hw with
  | appended ht =>
      refine h.frame (fun hv => ⟨_, hv, .refl _⟩) (fun _ _ => id) (.inr fun k => .inl ⟨t, ?_⟩)
        fun _ _ hd => ?_
      · rw [State.setWriter_self]
        trivial
      · exact .inr (.inr (due_setWriter (s := { s with logOffset := _ }) hd fun _ => trivial))
  | noted ht => exact h.setWriter fun _ _ _ => trivial
  | locked ht => exact h.setWriter fun _ hk _ => hk
  | @poked endOffset k rest ht =>
      refine h.frame (modify_samePlace (samePlace_poke hcap)) (fun _ _ => id) (.inl rfl)
        fun {k' v'} hv' _ hd => ?_
      by_cases heq : k' = k
      · -- there is a byte in its pipe now
        subst heq
        obtain ⟨v, rfl⟩ := modify_at hv'
        refine .inr (.inl ?_)
        show 0 < min (v.pipe + 1) capacity
        omega
      · refine .inr (.inr (due_setWriter (s := s.modify k _) hd fun howes => ?_))
        have howes : k' ∈ k :: rest := by
          have hwaking : (s.modify k (Served.poke capacity)).writers t = s.writers t := rfl
          rw [hwaking, ht] at howes
          exact howes
        exact (List.mem_cons.mp howes).resolve_left heq
  | unlocked ht =>
      refine h.setWriter fun _ _ howes => ?_
      rw [ht] at howes
      exact absurd howes List.not_mem_nil
  | entered ht =>
      refine h.setWriter fun _ _ howes => ?_
      rcases ht with ht | ht <;> rw [ht] at howes <;> exact howes
  | looked ht =>
      refine h.setWriter fun _ _ howes => ?_
      rw [ht] at howes
      exact howes
  | slept ht =>
      refine h.setWriter fun _ _ howes => ?_
      rw [ht] at howes
      exact howes
  | roused ht =>
      refine h.setWriter fun _ _ howes => ?_
      rw [ht] at howes
      exact howes
  | left ackTimeouts syncDegraded ht =>
      have hcounted : SessionsKeepUp
          { s with ackTimeouts := ackTimeouts, syncDegraded := syncDegraded } :=
        h.aside rfl rfl rfl fun _ _ => id
      exact hcounted.setWriter fun k _ howes => absurd howes (ht k)

/-- A step of a session's thread. -/
theorem SessionsKeepUp.setSession (h : SessionsKeepUp s) {k : Fin m} {v v' : Served}
    (hv : s.sessions k = some v) (hlisted : v'.place.finished = false → v.place.finished = false)
    (hcaught : ∀ o, v'.place.aim v'.session = some o →
      v'.stopping = true ∨ 0 < v'.pipe ∨ s.Due k ∨ s.logOffset ≤ o) :
    SessionsKeepUp (s.setSession k v') := by
  refine ⟨fun {k' u} hu hrun => ?_, fun {k' u o} hu haim => ?_⟩
  · by_cases heq : k' = k
    · subst heq
      rw [State.setSession_self] at hu
      obtain rfl := Option.some.inj hu
      exact h.listed hv (hlisted hrun)
    · rw [State.setSession_of_ne heq] at hu
      exact h.listed hu hrun
  · by_cases heq : k' = k
    · subst heq
      rw [State.setSession_self] at hu
      obtain rfl := Option.some.inj hu
      exact hcaught o haim
    · rw [State.setSession_of_ne heq] at hu
      exact h.caught hu haim

theorem owes_rouse {k : Fin m} {x : Writer m} (h : x.owes k) : x.rouse.owes k := by
  cases x <;> exact h

theorem SessionsKeepUp.notifyAll (h : SessionsKeepUp s) : SessionsKeepUp s.notifyAll := by
  refine h.aside rfl rfl rfl fun _ _ hd => ?_
  rcases hd with ⟨t, ht⟩ | hcovers
  · exact .inl ⟨t, owes_rouse ht⟩
  · exact .inr hcovers

theorem keepUp_moved (h : SessionsKeepUp s) {k : Fin m} {v : Served} (hv : s.sessions k = some v)
    (hm : ServeEffect s k v s') : SessionsKeepUp s' := by
  cases hm with
  | went _ hrun haim =>
      refine h.setSession hv (fun _ => hrun) fun o ho => ?_
      rcases haim o ho with hle | ⟨o', ho', hle⟩
      · exact .inr (.inr (.inr hle))
      · rcases h.caught hv ho' with hs | hp | hd | hlog
        · exact .inl hs
        · exact .inr (.inl hp)
        · exact .inr (.inr (.inl hd))
        · exact .inr (.inr (.inr (Nat.le_trans hlog hle)))
  | @shipped n target hplace =>
      refine h.setSession hv id fun o ho => ?_
      have haim : v.place.aim v.session = some o := by
        dsimp only at ho
        rw [hplace] at ho ⊢
        exact ho
      exact (h.caught hv haim : v.stopping = true ∨ _)
  | drained hplace haim =>
      refine h.setSession hv (fun _ => by rw [hplace]; rfl) fun o ho => ?_
      exact absurd (haim.symm.trans ho) (by simp)
  | read hplace _ haim =>
      refine h.setSession hv (fun _ => by rw [hplace]; rfl) fun o ho => ?_
      exact absurd (haim.symm.trans ho) (by simp)
  | noted hplace =>
      refine h.setSession hv (fun _ => by rw [hplace]; rfl) fun o ho => ?_
      exact absurd ho (by simp [Place.aim])
  | notified hplace =>
      refine h.notifyAll.setSession hv (fun _ => by rw [hplace]; rfl) fun o ho => ?_
      exact absurd ho (by simp [Place.aim])
  | left hplace =>
      refine h.notifyAll.setSession hv (fun hrun => absurd hrun (by simp [Place.finished]))
        fun o ho => ?_
      exact absurd ho (by simp [Place.aim])

theorem enlist_of_ne {k k' : Fin m} {start origin file : Nat} {u : Served} (hne : k' ≠ k)
    (hu : (s.enlist k start origin file).sessions k' = some u) : s.sessions k' = some u :=
  (State.setSession_of_ne hne _).symm.trans hu

theorem enlist_self {k : Fin m} {start origin file : Nat} {u : Served}
    (hu : (s.enlist k start origin file).sessions k = some u) :
    u = { session := { sentOffset := start, acked := start }, start := start, origin := origin,
          file := file, listed := s.log } :=
  (Option.some.inj ((State.setSession_self k _).symm.trans hu)).symm

theorem keepUp_enlist (h : SessionsKeepUp s) {k : Fin m} {start origin file : Nat} :
    SessionsKeepUp (s.enlist k start origin file) := by
  refine ⟨fun {k' u} hu hrun => ?_, fun {k' u o} hu haim => ?_⟩
  · by_cases heq : k' = k
    · rw [heq]
      exact List.mem_append_right _ (List.mem_singleton_self k)
    · exact List.mem_append_left _ (h.listed (enlist_of_ne heq hu) hrun)
  · by_cases heq : k' = k
    · subst heq
      rw [enlist_self hu] at haim
      exact absurd haim (by simp [Place.aim])
    · exact h.caught (enlist_of_ne heq hu) haim

theorem keepUp_step (hcap : 0 < capacity) (h : SessionsKeepUp s) {a : Act m w}
    (hsync : NoSyncFails s a) (hs : step mode capacity s a = some s') : SessionsKeepUp s' := by
  cases step_effect hs with
  | wrote hw => exact keepUp_wrote hcap h hw
  | served hv hm => exact keepUp_moved h hv hm
  | unsynced ha _ =>
      rw [ha] at hsync
      exact hsync.elim
  | greeted _ => exact h.aside rfl rfl rfl fun _ _ => id
  | opened _ => exact h.aside rfl rfl rfl fun _ _ => id
  | refused => exact h.aside rfl rfl rfl fun _ _ => id
  | registered _ _ _ => exact keepUp_enlist h
  | reaped =>
      refine h.frame (fun hv => ⟨_, hv, .refl _⟩) (fun {k v} hv hrun hk => ?_) (.inl rfl)
        fun _ _ hd => .inr (.inr hd)
      refine List.mem_filter.mpr ⟨hk, ?_⟩
      simp [State.finished, hv, hrun]
  | renamed hidle =>
      refine h.aside rfl rfl rfl fun _ _ hd => hd.imp_right ?_
      rw [hidle]
      exact False.elim
  | reopened _ =>
      exact h.frame (fun hv => ⟨_, hv, .refl _⟩) (fun _ _ => id) (.inr fun _ => .inr trivial)
        fun _ _ _ => .inr (.inr (.inr trivial))
  | unopened hrenamed =>
      refine h.aside rfl rfl rfl fun _ _ hd => hd.imp_right ?_
      rw [hrenamed]
      exact False.elim
  | snapshot _ => exact h.aside rfl rfl rfl fun _ hk _ => .inr hk
  | @halted k rest hstopping =>
      refine h.frame (modify_samePlace (samePlace_halt hcap)) (fun _ _ => id) (.inl rfl)
        fun {k' v'} hv' _ hd => ?_
      by_cases heq : k' = k
      · subst heq
        obtain ⟨v, rfl⟩ := modify_at hv'
        exact .inl rfl
      · refine .inr (.inr (hd.imp_right fun hcovers => ?_))
        rw [hstopping] at hcovers
        exact (List.mem_cons.mp hcovers).resolve_left heq
  | released hstopping =>
      refine h.aside rfl rfl rfl fun _ _ hd => hd.imp_right ?_
      rw [hstopping]
      exact List.not_mem_nil
  | stop _ => exact h.aside rfl rfl rfl fun _ _ => id
  | stopNotified _ => exact h.notifyAll.aside rfl rfl rfl fun _ _ => id
  | stopHalted _ =>
      exact h.frame (modify_samePlace (samePlace_halt hcap)) (fun _ _ => id) (.inl rfl)
        fun _ _ hd => .inr (.inr hd)

/-! ## Sessions of the log the store has -/

/-- Where the session's thread has come to, and where it goes, is in the log the store has. -/
def Served.InLog (v : Served) (s : State m w) : Prop :=
  v.listed = s.log ∧ v.session.sentOffset ≤ s.logOffset
    ∧ ∀ target, v.place = .shipping target → target ≤ s.logOffset

/-- An offset that the accept thread has read on the log the store has is in it. -/
def Accept.InLog (log logOffset : Nat) : Accept → Prop
  | .idle => True
  | .greeted start origin | .opened start origin _ =>
      origin ≤ log ∧ (origin = log → start ≤ logOffset)

theorem Accept.InLog.mono {accept : Accept} {log logOffset logOffset' : Nat}
    (h : accept.InLog log logOffset) (hle : logOffset ≤ logOffset') :
    accept.InLog log logOffset' := by
  cases accept with
  | idle => trivial
  | greeted start origin => exact ⟨h.1, fun heq => (h.2 heq).trans hle⟩
  | opened start origin file => exact ⟨h.1, fun heq => (h.2 heq).trans hle⟩

/-- An offset that was read on a log which is there no more does not matter. -/
theorem Accept.InLog.replaced {accept : Accept} {log log' logOffset logOffset' : Nat}
    (h : accept.InLog log logOffset) (hlt : log < log') : accept.InLog log' logOffset' := by
  cases accept with
  | idle => trivial
  | greeted start origin => exact ⟨h.1.trans hlt.le, fun heq => absurd h.1 (by omega)⟩
  | opened start origin file => exact ⟨h.1.trans hlt.le, fun heq => absurd h.1 (by omega)⟩

/-- A session of one log is in the log the store has, or it was told to stop, or a compaction is
about to tell it. -/
structure SessionsInLog (s : State m w) : Prop where
  numbered : s.log ≤ s.path
  renamed : ∀ {length}, s.compaction = .renamed length → s.log < s.path
  accept : s.accept.InLog s.log s.logOffset
  within : ∀ {k v}, s.sessions k = some v → v.place.finished = false → v.OfOneLog →
    v.stopping = true ∨ s.compaction.covers k ∨ v.InLog s

theorem SamePlace.ofOneLog {v v' : Served} (h : SamePlace v v') (hv' : v'.OfOneLog) :
    v.OfOneLog := by
  obtain ⟨horigin, hfile, hlisted⟩ := h.log
  unfold Served.OfOneLog at hv'
  rw [h.start, horigin, hfile, hlisted] at hv'
  exact hv'

theorem SamePlace.inLog {v v' : Served} (h : SamePlace v v') (hv : v.InLog s)
    (hlog : s'.log = s.log) (hle : s.logOffset ≤ s'.logOffset) : v'.InLog s' := by
  obtain ⟨hlisted, hsent, htarget⟩ := hv
  refine ⟨?_, ?_, fun target hplace => ?_⟩
  · rw [h.log.2.2, hlisted, hlog]
  · rw [h.session]
    exact hsent.trans hle
  · exact (htarget target (h.place.symm.trans hplace)).trans hle

/-- A step that leaves the sessions' threads where they are, and the log what it is or longer. -/
theorem SessionsInLog.frame (h : SessionsInLog s)
    (hsessions : ∀ {k v'}, s'.sessions k = some v' → ∃ v, s.sessions k = some v ∧ SamePlace v v')
    (hlog : s'.log = s.log) (hle : s.logOffset ≤ s'.logOffset) (hpath : s.path ≤ s'.path)
    (hrenamed : ∀ {length}, s'.compaction = .renamed length → s.log < s'.path)
    (haccept : s'.accept = s.accept)
    (hcovers : ∀ {k v v'}, s.sessions k = some v → v.place.finished = false →
      s'.sessions k = some v' → s.compaction.covers k →
      v'.stopping = true ∨ s'.compaction.covers k) :
    SessionsInLog s' := by
  refine ⟨?_, ?_, ?_, fun {k v'} hv' hrun hone => ?_⟩
  · rw [hlog]
    exact h.numbered.trans hpath
  · rw [hlog]
    exact hrenamed
  · rw [hlog, haccept]
    exact h.accept.mono hle
  · obtain ⟨v, hv, hsame⟩ := hsessions hv'
    rw [hsame.place] at hrun
    rcases h.within hv hrun (hsame.ofOneLog hone) with hstop | hcov | hin
    · exact .inl (hsame.stopping hstop)
    · exact (hcovers hv hrun hv' hcov).imp_right .inl
    · exact .inr (.inr (hsame.inLog hin hlog hle))

/-- A step that does nothing to the log, to the accept thread and to compactions. -/
theorem SessionsInLog.aside (h : SessionsInLog s)
    (hsessions : ∀ {k v'}, s'.sessions k = some v' → ∃ v, s.sessions k = some v ∧ SamePlace v v')
    (hlog : s'.log = s.log ∧ s.logOffset ≤ s'.logOffset ∧ s'.path = s.path)
    (haccept : s'.accept = s.accept) (hcompaction : s'.compaction = s.compaction) :
    SessionsInLog s' := by
  refine h.frame hsessions hlog.1 hlog.2.1 hlog.2.2.ge (fun hr => ?_) haccept
    fun _ _ _ hcov => .inr ?_
  · rw [hcompaction] at hr
    rw [hlog.2.2]
    exact h.renamed hr
  · rw [hcompaction]
    exact hcov

theorem inLog_wrote (hcap : 0 < capacity) (h : SessionsInLog s) {t : Fin w}
    (hw : WriteEffect capacity s t s') : SessionsInLog s' := by
  have hsame : ∀ {k : Fin m} {v : Served}, s.sessions k = some v →
      ∃ v', s.sessions k = some v' ∧ SamePlace v' v := fun hv => ⟨_, hv, .refl _⟩
  cases hw with
  | appended _ hle => exact h.aside hsame ⟨rfl, hle, rfl⟩ rfl rfl
  | poked _ =>
      exact h.aside (modify_samePlace (samePlace_poke hcap)) ⟨rfl, le_rfl, rfl⟩ rfl rfl
  | _ => exact h.aside hsame ⟨rfl, le_rfl, rfl⟩ rfl rfl

/-- A step of a session's thread, which goes on in the log. -/
theorem SessionsInLog.setSession (h : SessionsInLog s) {k : Fin m} {v v' : Served}
    (hv : s.sessions k = some v) (hrun : v'.place.finished = false → v.place.finished = false)
    (hone : v'.OfOneLog → v.OfOneLog) (hstop : v.stopping = true → v'.stopping = true)
    (hin : v.InLog s → v'.InLog s) : SessionsInLog (s.setSession k v') := by
  refine ⟨h.numbered, h.renamed, h.accept, fun {k' u} hu hgo hu1 => ?_⟩
  by_cases heq : k' = k
  · subst heq
    rw [State.setSession_self] at hu
    obtain rfl := Option.some.inj hu
    rcases h.within hv (hrun hgo) (hone hu1) with hs | hcov | hv1
    · exact .inl (hstop hs)
    · exact .inr (.inl hcov)
    · exact .inr (.inr (hin hv1))
  · rw [State.setSession_of_ne heq] at hu
    exact h.within hu hgo hu1

theorem SessionsInLog.notifyAll (h : SessionsInLog s) : SessionsInLog s.notifyAll :=
  h.aside (fun hv => ⟨_, hv, .refl _⟩) ⟨rfl, le_rfl, rfl⟩ rfl rfl

theorem inLog_moved (h : SessionsInLog s) {k : Fin m} {v : Served} (hv : s.sessions k = some v)
    (hm : ServeEffect s k v s') : SessionsInLog s' := by
  cases hm with
  | went _ hrun _ htarget =>
      refine h.setSession hv (fun _ => hrun) id id fun hin => ⟨hin.1, hin.2.1, fun target ht => ?_⟩
      exact Nat.le_of_eq (htarget target ht)
  | @shipped n target hplace hle =>
      refine h.setSession hv id id id fun hin => ⟨hin.1, ?_, hin.2.2⟩
      exact hle.trans (hin.2.2 target hplace)
  | drained hplace haim =>
      exact h.setSession hv (fun _ => by rw [hplace]; rfl) id id fun hin =>
        ⟨hin.1, hin.2.1, fun target ht => absurd ht (ne_shipping_of_aim haim)⟩
  | read hplace _ haim hsent =>
      exact h.setSession hv (fun _ => by rw [hplace]; rfl) id id fun hin =>
        ⟨hin.1, hsent.trans_le hin.2.1, fun target ht => absurd ht (ne_shipping_of_aim haim)⟩
  | noted hplace _ =>
      exact h.setSession hv (fun _ => by rw [hplace]; rfl) id id fun hin =>
        ⟨hin.1, hin.2.1, by simp⟩
  | notified hplace =>
      exact h.notifyAll.setSession hv (fun _ => by rw [hplace]; rfl) id id fun hin =>
        ⟨hin.1, hin.2.1, by simp⟩
  | left hplace =>
      exact h.notifyAll.setSession hv (fun hrun => absurd hrun (by simp [Place.finished])) id id
        fun hin => ⟨hin.1, hin.2.1, by simp⟩

/-- The session is in `sessions_` now. If it is one of one log, its offset was read on the log
the store has. -/
theorem inLog_enlist (h : SessionsInLog s) {k : Fin m} {start origin file : Nat}
    (haccept : s.accept = .opened start origin file) :
    SessionsInLog (s.enlist k start origin file) := by
  refine ⟨h.numbered, h.renamed, trivial, fun {k' u} hu hgo hone => ?_⟩
  by_cases heq : k' = k
  · subst heq
    obtain rfl := enlist_self hu
    refine .inr (.inr ⟨rfl, ?_, by simp⟩)
    have hoffered := h.accept
    rw [haccept] at hoffered
    rcases hone.1 with hzero | horigin
    · exact hzero.trans_le (Nat.zero_le _)
    · exact hoffered.2 (horigin.trans hone.2)
  · exact h.within (enlist_of_ne heq hu) hgo hone

theorem inLog_step (hcap : 0 < capacity) (hk : SessionsKeepUp s) (h : SessionsInLog s)
    {a : Act m w} (hs : step mode capacity s a = some s') : SessionsInLog s' := by
  have hsame : ∀ {k : Fin m} {v : Served}, s.sessions k = some v →
      ∃ v', s.sessions k = some v' ∧ SamePlace v' v := fun hv => ⟨_, hv, .refl _⟩
  cases step_effect hs with
  | wrote hw => exact inLog_wrote hcap h hw
  | served hv hm => exact inLog_moved h hv hm
  | unsynced _ hle => exact h.aside hsame ⟨rfl, hle, rfl⟩ rfl rfl
  | greeted hle => exact ⟨h.numbered, h.renamed, ⟨le_rfl, fun _ => hle⟩, h.within⟩
  | opened haccept =>
      have hoffered := h.accept
      rw [haccept] at hoffered
      exact ⟨h.numbered, h.renamed, hoffered, h.within⟩
  | refused => exact ⟨h.numbered, h.renamed, trivial, h.within⟩
  | registered haccept _ _ => exact inLog_enlist h haccept
  | reaped => exact h.aside hsame ⟨rfl, le_rfl, rfl⟩ rfl rfl
  | renamed hidle =>
      refine h.frame hsame rfl le_rfl (Nat.le_succ _) (fun _ => Nat.lt_succ_of_le h.numbered) rfl
        fun _ _ _ hcov => ?_
      rw [hidle] at hcov
      exact hcov.elim
  | reopened hrenamed =>
      -- every session of the old log is about to be stopped
      exact ⟨le_rfl, by simp, h.accept.replaced (h.renamed hrenamed),
        fun _ _ _ => .inr (.inl trivial)⟩
  | unopened hrenamed =>
      refine h.frame hsame rfl le_rfl le_rfl (by simp) rfl fun _ _ _ hcov => ?_
      rw [hrenamed] at hcov
      exact hcov.elim
  | snapshot _ =>
      exact h.frame hsame rfl le_rfl le_rfl (by simp) rfl fun hv hrun _ _ =>
        .inr (hk.listed hv hrun)
  | @halted k rest hstopping =>
      refine h.frame (modify_samePlace (samePlace_halt hcap)) rfl le_rfl le_rfl (by simp) rfl
        fun {k' _ v'} _ _ hv' hcov => ?_
      by_cases heq : k' = k
      · subst heq
        obtain ⟨v, rfl⟩ := modify_at hv'
        exact .inl rfl
      · rw [hstopping] at hcov
        exact .inr ((List.mem_cons.mp hcov).resolve_left heq)
  | released hstopping =>
      refine h.frame hsame rfl le_rfl le_rfl (by simp) rfl fun _ _ _ hcov => ?_
      rw [hstopping] at hcov
      exact absurd hcov List.not_mem_nil
  | stop _ => exact h.aside hsame ⟨rfl, le_rfl, rfl⟩ rfl rfl
  | stopNotified _ => exact h.aside hsame ⟨rfl, le_rfl, rfl⟩ rfl rfl
  | stopHalted _ =>
      exact h.aside (modify_samePlace (samePlace_halt hcap)) ⟨rfl, le_rfl, rfl⟩ rfl rfl

theorem keepUp_reachable (hcap : 0 < capacity)
    (h : (system m w mode capacity).ReachableBy NoSyncFails s) :
    SessionsKeepUp s ∧ SessionsInLog s := by
  refine h.invariant (I := fun s => SessionsKeepUp s ∧ SessionsInLog s) ?_
    fun _ _ _ hi hsync hs => ⟨keepUp_step hcap hi.1 hsync hs, inLog_step hcap hi.1 hi.2 hs⟩
  rintro s ⟨logOffset, rfl⟩
  exact ⟨⟨fun hv => absurd hv (by simp), fun hv => absurd hv (by simp)⟩,
    ⟨le_rfl, by simp, trivial, fun hv => absurd hv (by simp)⟩⟩

/-- The session and the client thread of the runs below. -/
def only : Fin 1 := ⟨0, Nat.zero_lt_one⟩

/-- A follower connects, and its session goes to sleep over an empty log; a record is appended,
and the session is woken up and ships it. -/
def shipping : List (Act 1 1) :=
  [.greet 0, .openLog, .register only, .serve only .start, .serve only .check, .serve only .look,
    .serve only .rest, .write only (.append 4), .write only .note, .write only .lock,
    .write only .poke, .write only .unlock, .serve only (.poll false), .serve only .drain,
    .serve only .check, .serve only .look, .serve only (.ship 5), .serve only .rest]

/-- A follower is at offset 100 when it connects, and a compaction leaves 31 bytes of the log
before its session is in `sessions_`. -/
def around : List (Act 1 1) :=
  [.greet 100, .openLog, .rename 31, .reopen, .snapshot, .release, .register only,
    .serve only .start, .serve only .check, .serve only .look, .serve only .rest]

-- nobody is to wake it up, and it has shipped nothing of the log
example : ∃ s : State 1 1, (system 1 1 .async 65536).ReachableBy NoSyncFails s
    ∧ s.logOffset = 31 ∧ s.writers only = .outside ∧ s.compaction = .idle
    ∧ (s.sessions only).any (fun v => decide (v.place = .polling ∧ v.stopping = false
      ∧ v.pipe = 0 ∧ v.file ≠ s.log ∧ v.session.sentOffset = 100)) = true :=
  System.exists_reachableBy
    (show (system 1 1 .async 65536).ReachableBy NoSyncFails _ from .init ⟨100, rfl⟩)
    around (by decide +kernel) (by decide +kernel)

/-! ## Acknowledgements reach who waits for them -/

/-- The thread has stored `acked`, and has not had `mutex_` since. -/
def AckStored (place : Place) : Prop := place = .noting

/-- The thread has stored `acked`, and has not notified since. -/
def AckUntold (place : Place) : Prop := place = .noting ∨ place = .notifying

/-- If the session has acknowledged that much, and has not come with it, its thread is there. -/
def Served.Heeds (v : Served) (endOffset : Nat) (there : Place → Prop) : Prop :=
  endOffset ≤ v.session.acked → there v.place ∨ endOffset ≤ v.start

/-- What a session has acknowledged, and a client thread that sleeps or looks has not seen, is
about to be told. -/
structure NoAckMissed (s : State m w) : Prop where
  asleep : ∀ {t endOffset}, s.writers t = .asleep endOffset →
    (∀ k ∈ s.registered, ∀ v, s.sessions k = some v → v.Heeds endOffset AckUntold)
      ∧ (s.stop = .never ∨ ∃ rest, s.stop = .flagged rest)
  checking : ∀ {t endOffset rest late}, s.writers t = .checking endOffset rest late →
    (∀ k ∈ s.registered, k ∉ rest → ∀ v, s.sessions k = some v → v.Heeds endOffset AckStored)
      ∧ s.stop = .never

theorem SamePlace.heeds {v v' : Served} (h : SamePlace v v') {endOffset : Nat}
    {there : Place → Prop} (hv : v.Heeds endOffset there) : v'.Heeds endOffset there := by
  unfold Served.Heeds
  rw [h.place, h.session, h.start]
  exact hv

theorem NoAckMissed.frame (h : NoAckMissed s) (hwriters : s'.writers = s.writers)
    (hlisted : ∀ k ∈ s'.registered, k ∈ s.registered)
    (hsessions : ∀ {k v'}, s'.sessions k = some v' → ∃ v, s.sessions k = some v ∧ SamePlace v v')
    (hstop : s'.stop = s.stop) : NoAckMissed s' := by
  refine ⟨fun {t endOffset} ht => ?_, fun {t endOffset rest late} ht => ?_⟩
  · rw [hwriters] at ht
    obtain ⟨hheeds, hgo⟩ := h.asleep ht
    refine ⟨fun k hk v' hv' => ?_, by rw [hstop]; exact hgo⟩
    obtain ⟨v, hv, hsame⟩ := hsessions hv'
    exact hsame.heeds (hheeds k (hlisted k hk) v hv)
  · rw [hwriters] at ht
    obtain ⟨hheeds, hgo⟩ := h.checking ht
    refine ⟨fun k hk hrest v' hv' => ?_, by rw [hstop]; exact hgo⟩
    obtain ⟨v, hv, hsame⟩ := hsessions hv'
    exact hsame.heeds (hheeds k (hlisted k hk) hrest v hv)

theorem NoAckMissed.setWriter (h : NoAckMissed s) {t : Fin w} {x : Writer m}
    (hasleep : ∀ {endOffset}, x = .asleep endOffset →
      (∀ k ∈ s.registered, ∀ v, s.sessions k = some v → v.Heeds endOffset AckUntold)
        ∧ (s.stop = .never ∨ ∃ rest, s.stop = .flagged rest))
    (hchecking : ∀ {endOffset rest late}, x = .checking endOffset rest late →
      (∀ k ∈ s.registered, k ∉ rest → ∀ v, s.sessions k = some v → v.Heeds endOffset AckStored)
        ∧ s.stop = .never) :
    NoAckMissed (s.setWriter t x) := by
  refine ⟨fun {t' endOffset} ht => ?_, fun {t' endOffset rest late} ht => ?_⟩
  · by_cases heq : t' = t
    · subst heq
      rw [State.setWriter_self] at ht
      exact hasleep ht
    · rw [State.setWriter_of_ne heq] at ht
      exact h.asleep ht
  · by_cases heq : t' = t
    · subst heq
      rw [State.setWriter_self] at ht
      exact hchecking ht
    · rw [State.setWriter_of_ne heq] at ht
      exact h.checking ht

theorem noAckMissed_wrote (hcap : 0 < capacity) (h : NoAckMissed s) {t : Fin w}
    (hw : WriteEffect capacity s t s') :
    NoAckMissed s' := by
  have hsame : ∀ {k : Fin m} {v : Served}, s.sessions k = some v →
      ∃ v', s.sessions k = some v' ∧ SamePlace v' v := fun hv => ⟨_, hv, .refl _⟩
  cases hw with
  | @appended n _ _ =>
      have hlog : NoAckMissed { s with logOffset := n } := h.frame rfl (fun _ => id) hsame rfl
      exact hlog.setWriter (by simp) (by simp)
  | noted _ => exact h.setWriter (by simp) (by simp)
  | locked _ => exact h.setWriter (by simp) (by simp)
  | @poked _ k _ _ =>
      have hpoked : NoAckMissed (s.modify k (Served.poke capacity)) :=
        h.frame rfl (fun _ => id) (modify_samePlace (samePlace_poke hcap)) rfl
      exact hpoked.setWriter (by simp) (by simp)
  | unlocked _ => exact h.setWriter (by simp) (by simp)
  | entered _ hgo =>
      refine h.setWriter (by simp) fun hx => ?_
      cases hx
      exact ⟨fun k hk hrest => absurd hk hrest, hgo⟩
  | @looked endOffset k rest late ht hnot =>
      refine h.setWriter (by simp) fun hx => ?_
      cases hx
      obtain ⟨hheeds, hgo⟩ := h.checking ht
      refine ⟨fun k' hk' hrest v hv hacked => ?_, hgo⟩
      by_cases heq : k' = k
      · -- it was not enough a moment ago
        subst heq
        exact absurd hacked (by have := hnot v hv; omega)
      · exact hheeds k' hk' (by simp [heq, hrest]) v hv hacked
  | slept ht =>
      refine h.setWriter (fun hx => ?_) (by simp)
      cases hx
      obtain ⟨hheeds, hgo⟩ := h.checking ht
      refine ⟨fun k hk v hv hacked => ?_, .inl hgo⟩
      rcases hheeds k hk List.not_mem_nil v hv hacked with hstored | hcame
      · exact .inl (.inl hstored)
      · exact .inr hcame
  | roused _ => exact h.setWriter (by simp) (by simp)
  | left ackTimeouts syncDegraded _ =>
      have hcounted : NoAckMissed
        { s with ackTimeouts := ackTimeouts, syncDegraded := syncDegraded } :=
        h.frame rfl (fun _ => id) hsame rfl
      exact hcounted.setWriter (by simp) (by simp)

theorem locked_of_checking {t : Fin w} {endOffset : Nat} {rest : List (Fin m)} {late : Bool}
    (ht : s.writers t = .checking endOffset rest late) : s.locked := ⟨t, by rw [ht]; rfl⟩

/-- A step of a session's thread, with what it does to who sleeps, and to who looks. -/
theorem NoAckMissed.setSession (h : NoAckMissed s) {k : Fin m} {v v' : Served}
    (hv : s.sessions k = some v)
    (hasleep : ∀ {t endOffset}, s.writers t = .asleep endOffset → v.Heeds endOffset AckUntold →
      v'.Heeds endOffset AckUntold)
    (hchecking : s.locked → ∀ {endOffset}, v.Heeds endOffset AckStored →
      v'.Heeds endOffset AckStored) :
    NoAckMissed (s.setSession k v') := by
  refine ⟨fun {t endOffset} ht => ?_, fun {t endOffset rest late} ht => ?_⟩
  · obtain ⟨hheeds, hgo⟩ := h.asleep ht
    refine ⟨fun k' hk' u hu => ?_, hgo⟩
    by_cases heq : k' = k
    · subst heq
      rw [State.setSession_self] at hu
      obtain rfl := Option.some.inj hu
      exact hasleep ht (hheeds k' hk' v hv)
    · rw [State.setSession_of_ne heq] at hu
      exact hheeds k' hk' u hu
  · obtain ⟨hheeds, hgo⟩ := h.checking ht
    refine ⟨fun k' hk' hrest u hu => ?_, hgo⟩
    by_cases heq : k' = k
    · subst heq
      rw [State.setSession_self] at hu
      obtain rfl := Option.some.inj hu
      exact hchecking (locked_of_checking ht) (hheeds k' hk' hrest v hv)
    · rw [State.setSession_of_ne heq] at hu
      exact hheeds k' hk' hrest u hu

theorem rouse_ne_asleep (x : Writer m) (endOffset : Nat) : x.rouse ≠ .asleep endOffset := by
  cases x <;> simp [Writer.rouse]

theorem eq_checking_of_rouse {x : Writer m} {endOffset : Nat} {rest : List (Fin m)} {late : Bool}
    (h : x.rouse = .checking endOffset rest late) : x = .checking endOffset rest late := by
  cases x <;> first | exact h | exact absurd h (by simp [Writer.rouse])

theorem NoAckMissed.notifyAll (h : NoAckMissed s) : NoAckMissed s.notifyAll :=
  ⟨fun ht => absurd ht (rouse_ne_asleep _ _), fun ht => h.checking (eq_checking_of_rouse ht)⟩

/-- A thread that was elsewhere tells nothing that was not known when it came. -/
theorem Served.Heeds.came {v : Served} {endOffset : Nat} {there : Place → Prop}
    (h : v.Heeds endOffset there) (hnot : ¬ there v.place) (hacked : endOffset ≤ v.session.acked) :
    endOffset ≤ v.start := (h hacked).resolve_left hnot

theorem noAckMissed_moved (h : NoAckMissed s) {k : Fin m} {v : Served} (hv : s.sessions k = some v)
    (hm : ServeEffect s k v s') : NoAckMissed s' := by
  cases hm with
  | went hfrom _ _ =>
      refine h.setSession hv (fun _ hheeds hacked => ?_) fun _ _ hheeds hacked => ?_
      · exact .inr (hheeds.came (fun ht => ht.elim hfrom.1 hfrom.2) hacked)
      · exact .inr (hheeds.came hfrom.1 hacked)
  | shipped _ => exact h.setSession hv (fun _ hheeds => hheeds) fun _ _ hheeds => hheeds
  | drained hplace _ =>
      refine h.setSession hv (fun _ hheeds hacked => ?_) fun _ _ hheeds hacked => ?_
      · exact .inr (hheeds.came (by simp [AckUntold, hplace]) hacked)
      · exact .inr (hheeds.came (by simp [AckStored, hplace]) hacked)
  | read hplace hack _ =>
      refine h.setSession hv (fun _ hheeds hacked => ?_) fun _ _ hheeds hacked => ?_
      · rcases hack with hnoting | hsame
        · exact .inl (.inl hnoting)
        · exact .inr (hheeds.came (by simp [AckUntold, hplace]) (hsame ▸ hacked))
      · rcases hack with hnoting | hsame
        · exact .inl hnoting
        · exact .inr (hheeds.came (by simp [AckStored, hplace]) (hsame ▸ hacked))
  | noted _ hfree =>
      refine h.setSession hv (fun _ _ _ => .inl (.inr rfl)) fun hlocked => ?_
      exact absurd hlocked hfree
  | notified hplace =>
      refine h.notifyAll.setSession hv (fun ht => absurd ht (rouse_ne_asleep _ _))
        fun _ _ hheeds hacked => ?_
      exact .inr (hheeds.came (by simp [AckStored, hplace]) hacked)
  | left hplace =>
      refine h.notifyAll.setSession hv (fun ht => absurd ht (rouse_ne_asleep _ _))
        fun _ _ hheeds hacked => ?_
      exact .inr (hheeds.came (by simp [AckStored, hplace]) hacked)

theorem noAckMissed_enlist (h : NoAckMissed s) {k : Fin m} {start origin file : Nat}
    (hfree : ¬ s.locked) : NoAckMissed (s.enlist k start origin file) := by
  refine ⟨fun {t endOffset} ht => ?_, fun ht => absurd (locked_of_checking ht) hfree⟩
  obtain ⟨hheeds, hgo⟩ := h.asleep ht
  refine ⟨fun k' hk' u hu => ?_, hgo⟩
  by_cases heq : k' = k
  · subst heq
    rw [enlist_self hu]
    exact fun hacked => .inr hacked
  · refine hheeds k' ?_ u (enlist_of_ne heq hu)
    exact (List.mem_append.mp hk').resolve_right fun hmem => heq (List.mem_singleton.mp hmem)

theorem noAckMissed_step (hcap : 0 < capacity) (h : NoAckMissed s) {a : Act m w}
    (hs : step mode capacity s a = some s') : NoAckMissed s' := by
  have hsame : ∀ {k : Fin m} {v : Served}, s.sessions k = some v →
      ∃ v', s.sessions k = some v' ∧ SamePlace v' v := fun hv => ⟨_, hv, .refl _⟩
  cases step_effect hs with
  | wrote hw => exact noAckMissed_wrote hcap h hw
  | served hv hm => exact noAckMissed_moved h hv hm
  | registered _ hfree _ => exact noAckMissed_enlist h hfree
  | reaped => exact h.frame rfl (fun k hk => (List.mem_filter.mp hk).1) hsame rfl
  | halted _ => exact h.frame rfl (fun _ => id) (modify_samePlace (samePlace_halt hcap)) rfl
  | stop hfree =>
      refine ⟨fun ht => ⟨(h.asleep ht).1, .inr ⟨_, rfl⟩⟩, fun ht => ?_⟩
      exact absurd (locked_of_checking ht) hfree
  | stopNotified hflagged =>
      refine ⟨fun ht => absurd ht (rouse_ne_asleep _ _), fun ht => ?_⟩
      -- whoever looks has seen that the leader goes on
      have hgo := (h.checking (eq_checking_of_rouse ht)).2
      exact absurd (hflagged.symm.trans hgo) (by simp)
  | stopHalted hstopping =>
      refine ⟨fun ht => ?_, fun ht => ?_⟩
      · rcases (h.asleep ht).2 with hgo | ⟨rest', hflagged⟩
        · exact absurd (hstopping.symm.trans hgo) (by simp)
        · exact absurd (hstopping.symm.trans hflagged) (by simp)
      · exact absurd (hstopping.symm.trans (h.checking ht).2) (by simp)
  | _ => exact h.frame rfl (fun _ => id) hsame rfl

theorem noAckMissed_reachable (hcap : 0 < capacity) (h : (system m w mode capacity).Reachable s) :
    NoAckMissed s := by
  refine h.invariant (I := NoAckMissed) ?_ fun _ _ _ hk _ hs => noAckMissed_step hcap hk hs
  rintro s ⟨logOffset, rfl⟩
  exact ⟨fun ht => absurd ht (by simp), fun ht => absurd ht (by simp)⟩

/-- No acknowledgement is slept through. While a client thread sleeps in `onAppend`, a session
in `sessions_` that has acknowledged as much as it waits for is on its way to notify it,
between storing the offset and `notify_all`; the one exception is a session whose follower
had that much when it connected, of which nobody is notified. And once the leader is told to
stop, a client thread sleeps only until `stop` has notified all. -/
theorem no_ack_slept_through (hcap : 0 < capacity) (h : (system m w mode capacity).Reachable s)
    {t : Fin w} {endOffset : Nat} (ht : s.writers t = .asleep endOffset) :
    (∀ k ∈ s.registered, ∀ v, s.sessions k = some v → endOffset ≤ v.session.acked →
        v.place = .noting ∨ v.place = .notifying ∨ endOffset ≤ v.start)
      ∧ (s.stop = .never ∨ ∃ rest, s.stop = .flagged rest) := by
  obtain ⟨hheeds, hgo⟩ := (noAckMissed_reachable hcap h).asleep ht
  refine ⟨fun k hk v hv hacked => ?_, hgo⟩
  rcases hheeds k hk v hv hacked with (hnoting | hnotifying) | hcame
  · exact .inl hnoting
  · exact .inr (.inl hnotifying)
  · exact .inr (.inr hcame)

theorem no_ack_slept_through_noting :
    ∃ s : State 1 1, (system 1 1 .sync 65536).Reachable s ∧ s.writers only = .asleep 5
      ∧ ∃ v, s.sessions only = some v ∧ v.session.acked = 5
        ∧ (v.place = .noting ∨ v.place = .notifying) := by
  obtain ⟨s, hreach, hasleep, hlisted, hsession⟩ := System.exists_reachableBy
    (p := fun s => s.writers only = .asleep 5 ∧ only ∈ s.registered
      ∧ (s.sessions only).any (fun v => decide (v.session.acked = 5 ∧ v.start = 0)) = true)
    (show (system 1 1 .sync 65536).Reachable _ from .init ⟨0, rfl⟩)
    (shipping ++ [.write only .wait, .write only .look, .write only .sleep,
      .serve only (.poll true), .serve only (.read (ackLine 5))])
    (by decide +kernel) (by decide +kernel)
  obtain ⟨v, hv, hat⟩ := (Option.any_eq_true ..).mp hsession
  obtain ⟨hacked, hstart⟩ := of_decide_eq_true hat
  refine ⟨s, hreach, hasleep, v, hv, hacked, ?_⟩
  rcases (no_ack_slept_through (by decide) hreach hasleep).1 only hlisted v hv
    (Nat.le_of_eq hacked.symm) with hnoting | hnotifying | hcame
  · exact .inl hnoting
  · exact .inr hnotifying
  · omega

end KvStore.Repl.Threads
