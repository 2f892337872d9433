import KvStore.Lib.Runs
import KvStore.Protocol.Commands
import KvStore.Wal.WriteAheadLog

/-!
# The compactor

`src/wal/compactor.cpp`. A rewrite puts one `SET` for every entry into a file of its
own, and gives that file the path of the log once it is complete and on disk. Until
then the log is as it was, and a rewrite that fails leaves it so.

The calls into the operating system are steps, so that a step is where the process
may be interrupted. The `fsync` of the directory at the end is left out: nothing
depends on its result.
-/

namespace KvStore.Wal

open Lib Protocol

/-- `CompactionResult`. -/
structure CompactionResult where
  ok : Bool := false
  error : String := ""
  recordsWritten : Nat := 0
  bytesBefore : Nat := 0
  bytesAfter : Nat := 0
  deriving DecidableEq, Repr

namespace Compactor

/-- The log that `rewrite` renames into place: one `SET` for every entry. -/
def rewrite (entries : List (Bytes × Bytes)) : Bytes :=
  entries.flatMap fun entry => frame (Command.set entry.1 entry.2).serialize

/-! ## The calls it makes -/

/-- The call that `rewrite` makes next. -/
inductive Stage where
  | opening (entries : List (Bytes × Bytes))
  /-- In `writeAll`: what is left of a record, and the entries behind it. -/
  | writing (data : Bytes) (entries : List (Bytes × Bytes))
  | syncing
  | renaming
  | returned
  deriving DecidableEq, Repr

/-- The two files, and how far `rewrite` is. -/
structure Rewriting where
  path : Bytes
  temp : Option Bytes
  stage : Stage
  result : CompactionResult
  deriving DecidableEq, Repr

/-- What a system call returned. A short count is not an error. -/
inductive Answer where
  | ok
  | wrote (n : Nat)
  | interrupted
  | failed (strerror : String)
  deriving DecidableEq, Repr

/-- The head of the loop over the entries. -/
def nextEntry (r : Rewriting) : List (Bytes × Bytes) → Rewriting
  | [] => { r with stage := .syncing }
  | entry :: entries =>
      { r with stage := .writing (frame (Command.set entry.1 entry.2).serialize) entries }

/-- Return with an error, the temporary file unlinked. -/
def giveUp (r : Rewriting) (call strerror : String) : Rewriting :=
  { r with
    temp := none
    stage := .returned
    result := { r.result with error := call ++ " failed: " ++ strerror } }

/-- What `Compactor::rewrite` does behind the answer to one system call. -/
def stepRewrite (r : Rewriting) (answer : Answer) : Option Rewriting :=
  match r.stage, answer with
  | .opening entries, .ok => some (nextEntry { r with temp := some [] } entries)
  | .opening _, .failed strerror =>
      -- there is nothing to unlink yet
      some { giveUp r "open(compact)" strerror with temp := r.temp }
  | .writing data entries, .wrote n =>
      let r := { r with temp := some (r.temp.getD [] ++ data.take n) }
      if data.drop n = [] then
        let result := { r.result with recordsWritten := r.result.recordsWritten + 1 }
        some (nextEntry { r with result := result } entries)
      else some { r with stage := .writing (data.drop n) entries }
  | .writing _ _, .interrupted => some r
  | .writing _ _, .failed strerror => some (giveUp r "write(compact)" strerror)
  | .syncing, .ok => some { r with stage := .renaming }
  | .syncing, .failed strerror => some (giveUp r "fsync(compact)" strerror)
  | .renaming, .ok =>
      let path := r.temp.getD []
      some
        { path := path
          temp := none
          stage := .returned
          result := { r.result with ok := true, bytesAfter := path.length } }
  | .renaming, .failed strerror => some (giveUp r "rename(compact)" strerror)
  | _, _ => none

/-- A rewrite of the log; an earlier one may have left its temporary file behind. -/
def rewriting (log : Bytes) (temp : Option Bytes) (entries : List (Bytes × Bytes)) :
    System Rewriting Answer where
  init r := r =
    { path := log
      temp := temp
      stage := .opening entries
      result := { bytesBefore := log.length } }
  step := stepRewrite

/-! ## The path names the old log, or the whole new one -/

@[simp] theorem rewrite_cons (entry : Bytes × Bytes) (entries : List (Bytes × Bytes)) :
    rewrite (entry :: entries)
      = frame (Command.set entry.1 entry.2).serialize ++ rewrite entries := List.flatMap_cons

/-- What has been written and what is still to be written are the new log. -/
def Rewriting.Written (entries : List (Bytes × Bytes)) (r : Rewriting) : Prop :=
  match r.stage with
  | .opening es => es = entries
  | .writing data es => r.temp.getD [] ++ data ++ rewrite es = rewrite entries
  | .syncing => r.temp.getD [] = rewrite entries
  | .renaming => r.temp.getD [] = rewrite entries
  | .returned => True

/-- The path is given another file by a rewrite that succeeds, and by nothing else. -/
structure Rewriting.Atomic (log : Bytes) (entries : List (Bytes × Bytes)) (r : Rewriting) :
    Prop where
  written : r.Written entries
  path : r.path = if r.result.ok then rewrite entries else log
  running : r.stage ≠ .returned → r.result.ok = false

section Atomic

variable {log : Bytes} {entries : List (Bytes × Bytes)} {r : Rewriting}

/-- As long as nothing has succeeded, the path is as it was. -/
theorem Rewriting.Written.atomic (hwritten : r.Written entries) (hpath : r.path = log)
    (hok : r.result.ok = false) : r.Atomic log entries := by
  refine ⟨hwritten, ?_, fun _ => hok⟩
  rw [hok, hpath]
  rfl

theorem atomic_nextEntry {es : List (Bytes × Bytes)}
    (hwritten : r.temp.getD [] ++ rewrite es = rewrite entries) (hpath : r.path = log)
    (hok : r.result.ok = false) : (nextEntry r es).Atomic log entries := by
  cases es with
  | nil =>
      rw [rewrite, List.flatMap_nil, List.append_nil] at hwritten
      exact Rewriting.Written.atomic hwritten hpath hok
  | cons entry es =>
      rw [rewrite_cons, ← List.append_assoc] at hwritten
      exact Rewriting.Written.atomic hwritten hpath hok

theorem atomic_giveUp (hpath : r.path = log) (hok : r.result.ok = false) (call strerror : String)
    (temp : Option Bytes) :
    Rewriting.Atomic log entries { giveUp r call strerror with temp := temp } :=
  Rewriting.Written.atomic trivial hpath hok

theorem atomic_step (h : r.Atomic log entries) {answer : Answer} {r' : Rewriting}
    (hs : stepRewrite r answer = some r') : r'.Atomic log entries := by
  obtain ⟨hwritten, hpath, hrunning⟩ := h
  unfold Rewriting.Written at hwritten
  unfold stepRewrite at hs
  -- until it returns, the path is as it was
  have hbefore : r.stage ≠ .returned → r.path = log ∧ r.result.ok = false := by
    intro hne
    rw [hrunning hne] at hpath
    exact ⟨hpath, hrunning hne⟩
  split at hs
  · rename_i es hstage
    obtain ⟨hp, hok⟩ := hbefore (by simp [hstage])
    rw [hstage] at hwritten
    cases hs
    exact atomic_nextEntry (by rw [hwritten]; rfl) hp hok
  · rename_i strerror hstage
    obtain ⟨hp, hok⟩ := hbefore (by simp [hstage])
    cases hs
    exact atomic_giveUp hp hok _ _ _
  · rename_i data es n hstage
    obtain ⟨hp, hok⟩ := hbefore (by simp [hstage])
    rw [hstage] at hwritten
    have hsplit : r.temp.getD [] ++ data.take n ++ (data.drop n ++ rewrite es)
      = rewrite entries := by
      rw [← hwritten, List.append_assoc, ← List.append_assoc (data.take n), List.take_append_drop,
        List.append_assoc]
    dsimp only at hs
    split at hs
    · rename_i hdone
      rw [hdone, List.nil_append] at hsplit
      cases hs
      exact atomic_nextEntry hsplit hp hok
    · cases hs
      rw [← List.append_assoc] at hsplit
      exact Rewriting.Written.atomic hsplit hp hok
  · cases hs
    exact ⟨hwritten, hpath, hrunning⟩
  · rename_i strerror hstage
    obtain ⟨hp, hok⟩ := hbefore (by simp [hstage])
    cases hs
    exact atomic_giveUp hp hok _ _ none
  · rename_i hstage
    obtain ⟨hp, hok⟩ := hbefore (by simp [hstage])
    rw [hstage] at hwritten
    cases hs
    exact Rewriting.Written.atomic hwritten hp hok
  · rename_i strerror hstage
    obtain ⟨hp, hok⟩ := hbefore (by simp [hstage])
    cases hs
    exact atomic_giveUp hp hok _ _ none
  · rename_i hstage
    rw [hstage] at hwritten
    cases hs
    exact ⟨trivial, hwritten, fun hne => absurd rfl hne⟩
  · rename_i strerror hstage
    obtain ⟨hp, hok⟩ := hbefore (by simp [hstage])
    cases hs
    exact atomic_giveUp hp hok _ _ none
  · exact absurd hs (by simp)

/-- **At every call of a rewrite**, the path names the old log or the whole new one. -/
theorem atomic_reachable {temp : Option Bytes} (h : (rewriting log temp entries).Reachable r) :
    r.Atomic log entries := by
  refine h.invariant (I := Rewriting.Atomic log entries) ?_ fun _ _ _ hr _ hs => atomic_step hr hs
  rintro r rfl
  exact ⟨rfl, rfl, fun _ => rfl⟩

/-- When every call takes all it is given, every entry is written. -/
theorem reachable_syncing {temp : Option Bytes} (es : List (Bytes × Bytes)) {r : Rewriting}
    (h : (rewriting log temp entries).Reachable (nextEntry r es)) :
    ∃ r', (rewriting log temp entries).Reachable r' ∧ r'.stage = .syncing := by
  induction es generalizing r with
  | nil => exact ⟨_, h, rfl⟩
  | cons entry es ih =>
      obtain ⟨answer, r', hs⟩ : ∃ answer r', (rewriting log temp entries).step
          (nextEntry r (entry :: es)) answer = some (nextEntry r' es) :=
        ⟨.wrote (frame (Command.set entry.1 entry.2).serialize).length, _, if_pos List.drop_length⟩
      exact ih (h.tail trivial hs)

/-- A rewrite whose calls all succeed puts the new log in place. -/
theorem exists_rewritten (log : Bytes) (temp : Option Bytes) (entries : List (Bytes × Bytes)) :
    ∃ r, (rewriting log temp entries).Reachable r ∧ r.stage = .returned
      ∧ r.path = rewrite entries := by
  obtain ⟨r, hr, hstage⟩ := reachable_syncing entries
    ((System.ReachableBy.init rfl : (rewriting log temp entries).Reachable _).tail
      (a := .ok) trivial rfl)
  have hsync : stepRewrite r .ok = some { r with stage := .renaming } := by
    unfold stepRewrite
    rw [hstage]
  have hlast := (hr.tail trivial hsync).tail (a := .ok) trivial rfl
  exact ⟨_, hlast, rfl, (atomic_reachable hlast).path⟩

end Atomic

end Compactor

end KvStore.Wal
