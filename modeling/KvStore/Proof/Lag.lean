import KvStore.Repl.Lag

/-!
# The lag queue

`noteAck` stops at the first entry that has not been acknowledged. That is the right
place to stop in a queue whose offsets increase, and they do so long as the writers come
to `onAppend` in the order of their appends, and no entry is left in the queue when the
log is replaced. Nothing makes them come in that order, and nothing empties the queue.
-/

namespace KvStore.Repl

open Lib

/-- The loop takes a front part off, and stops at an entry that is further on. -/
theorem LagQueue.noteLoop_spec (offset now : Nat) (pending : List PendingRecord)
    (stats : LagStats) :
    ∃ taken, pending = taken ++ (noteLoop offset now pending stats).1
      ∧ (∀ r ∈ taken, r.offset ≤ offset)
      ∧ (noteLoop offset now pending stats).2.count = stats.count + taken.length
      ∧ ∀ r ∈ (noteLoop offset now pending stats).1.head?, offset < r.offset := by
  induction pending generalizing stats with
  | nil => exact ⟨[], rfl, by simp, rfl, by simp [noteLoop]⟩
  | cons record pending ih =>
      rw [noteLoop]
      split
      · rename_i hle
        obtain ⟨taken, hsplit, htaken, hcount, hhead⟩ := ih (stats.sample (now - record.time))
        refine ⟨record :: taken, congrArg _ hsplit, List.forall_mem_cons.mpr ⟨hle, htaken⟩, ?_,
          hhead⟩
        rw [hcount, List.length_cons]
        show stats.count + 1 + taken.length = _
        omega
      · rename_i hgt
        refine ⟨[], rfl, by simp, rfl, ?_⟩
        intro r hr
        obtain rfl := Option.some.inj hr
        omega

namespace Lag

/-! ## The order in which the queue is filled -/

/--
What keeps the queue in order: nobody comes to `onAppend` before somebody who appended
earlier, and the log is replaced only when every record has been acknowledged.
-/
def InOrder (s : State) : Act → Prop
  | .onAppend endOffset _ => ∀ e ∈ s.appended, endOffset ≤ e
  | .compact _ => s.queue.pending = []
  | _ => True

instance : ∀ (s : State) (a : Act), Decidable (InOrder s a)
  | s, .onAppend endOffset _ => inferInstanceAs (Decidable (∀ e ∈ s.appended, endOffset ≤ e))
  | s, .compact _ => inferInstanceAs (Decidable (s.queue.pending = []))
  | _, .register => inferInstanceAs (Decidable True)
  | _, .reap => inferInstanceAs (Decidable True)
  | _, .append _ => inferInstanceAs (Decidable True)
  | _, .leave => inferInstanceAs (Decidable True)
  | _, .ack _ _ => inferInstanceAs (Decidable True)

/-- The queue is in the order of the log, and nothing in it is of another log. -/
structure InLogOrder (s : State) : Prop where
  sorted : s.queue.pending.Pairwise (·.offset ≤ ·.offset)
  /-- An entry is of the log that there is, and within it. -/
  current : ∀ r ∈ s.queue.pending, r.log = s.log ∧ r.offset ≤ s.logEnd
  within : ∀ e ∈ s.appended, e ≤ s.logEnd
  /-- Who has still to come is not earlier than who is in the queue. -/
  later : ∀ r ∈ s.queue.pending, ∀ e ∈ s.appended, r.offset ≤ e

/-- What is left of the queue was in it. -/
theorem mem_noteAck {q : LagQueue} {offset now : Nat} {r : PendingRecord}
    (h : r ∈ (q.noteAck offset now).pending) : r ∈ q.pending := by
  obtain ⟨taken, hsplit, -⟩ := LagQueue.noteLoop_spec offset now q.pending q.stats
  rw [hsplit]
  exact List.mem_append_right _ h

theorem sorted_noteAck {q : LagQueue} (offset now : Nat)
    (h : q.pending.Pairwise (·.offset ≤ ·.offset)) :
    (q.noteAck offset now).pending.Pairwise (·.offset ≤ ·.offset) := by
  obtain ⟨taken, hsplit, -⟩ := LagQueue.noteLoop_spec offset now q.pending q.stats
  rw [hsplit] at h
  exact (List.pairwise_append.mp h).2.1

/-- In a queue that is in order, everything behind the first entry is further on, too. -/
theorem lt_of_mem_noteAck {q : LagQueue} {offset now : Nat} {r : PendingRecord}
    (h : q.pending.Pairwise (·.offset ≤ ·.offset)) (hr : r ∈ (q.noteAck offset now).pending) :
    offset < r.offset := by
  obtain ⟨taken, -, -, -, hhead⟩ := LagQueue.noteLoop_spec offset now q.pending q.stats
  have hsorted : ((LagQueue.noteLoop offset now q.pending q.stats).1).Pairwise
      (·.offset ≤ ·.offset) := sorted_noteAck offset now h
  change r ∈ (LagQueue.noteLoop offset now q.pending q.stats).1 at hr
  cases hpending : (LagQueue.noteLoop offset now q.pending q.stats).1 with
  | nil =>
      rw [hpending] at hr
      exact absurd hr List.not_mem_nil
  | cons first rest =>
      rw [hpending] at hr hsorted hhead
      have hfirst := hhead first rfl
      rcases List.mem_cons.mp hr with rfl | hr
      · exact hfirst
      · exact Nat.lt_of_lt_of_le hfirst ((List.pairwise_cons.mp hsorted).1 r hr)

section Step

variable {s : State} (h : InLogOrder s)

include h

theorem inLogOrder_append (n : Nat) :
    InLogOrder
      { s with logEnd := s.logEnd + (n + 1), appended := s.appended ++ [s.logEnd + (n + 1)] } := by
  refine ⟨h.sorted, fun r hr => ?_, ?_, fun r hr => ?_⟩
  · obtain ⟨hlog, hle⟩ := h.current r hr
    exact ⟨hlog, Nat.le_add_right_of_le hle⟩
  · refine List.forall_mem_append.mpr ⟨fun e he => Nat.le_add_right_of_le (h.within e he), ?_⟩
    intro e he
    exact Nat.le_of_eq (List.mem_singleton.mp he)
  · refine List.forall_mem_append.mpr ⟨h.later r hr, fun e he => ?_⟩
    rw [List.mem_singleton.mp he]
    exact Nat.le_add_right_of_le (h.current r hr).2

theorem inLogOrder_onAppend {endOffset now : Nat} (hmem : endOffset ∈ s.appended)
    (horder : ∀ e ∈ s.appended, endOffset ≤ e) :
    InLogOrder { s with
      queue := s.queue.onAppend endOffset now s.log
      appended := s.appended.erase endOffset
      waiting := s.waiting + 1 } := by
  have hstill : ∀ e ∈ s.appended.erase endOffset, e ∈ s.appended := fun e he =>
    List.mem_of_mem_erase he
  unfold LagQueue.onAppend
  split
  · -- the new entry goes behind those that are there, and before those that are to come
    refine ⟨?_, ?_, fun e he => h.within e (hstill e he), ?_⟩
    · refine List.pairwise_append.mpr ⟨h.sorted, List.pairwise_singleton .., fun r hr r' hr' => ?_⟩
      rw [List.mem_singleton.mp hr']
      exact h.later r hr endOffset hmem
    · refine List.forall_mem_append.mpr ⟨h.current, fun r hr => ?_⟩
      rw [List.mem_singleton.mp hr]
      exact ⟨rfl, h.within endOffset hmem⟩
    · refine List.forall_mem_append.mpr
        ⟨fun r hr e he => h.later r hr e (hstill e he), fun r hr e he => ?_⟩
      rw [List.mem_singleton.mp hr]
      exact horder e (hstill e he)
  · exact ⟨h.sorted, h.current, fun e he => h.within e (hstill e he),
      fun r hr e he => h.later r hr e (hstill e he)⟩

theorem inLogOrder_step {a : Act} {s' : State} (hok : InOrder s a) (hs : step s a = some s') :
    InLogOrder s' := by
  cases a with
  | register =>
      cases hs
      exact ⟨h.sorted, h.current, h.within, h.later⟩
  | reap =>
      rw [step] at hs
      split at hs
      · cases hs
        exact ⟨h.sorted, h.current, h.within, h.later⟩
      · exact absurd hs (by simp)
  | append n =>
      cases hs
      exact inLogOrder_append h n
  | onAppend endOffset now =>
      rw [step] at hs
      split at hs
      · rename_i hmem
        cases hs
        exact inLogOrder_onAppend h hmem hok
      · exact absurd hs (by simp)
  | leave =>
      rw [step] at hs
      split at hs
      · cases hs
        exact ⟨h.sorted, h.current, h.within, h.later⟩
      · exact absurd hs (by simp)
  | ack offset now =>
      cases hs
      exact ⟨sorted_noteAck offset now h.sorted, fun r hr => h.current r (mem_noteAck hr), h.within,
        fun r hr => h.later r (mem_noteAck hr)⟩
  | compact length =>
      rw [step] at hs
      split at hs
      · rename_i hfree
        cases hs
        -- the offsets start again, and there is no entry to compare them with
        have hempty : s.queue.pending = [] := hok
        refine ⟨h.sorted, ?_, ?_, ?_⟩ <;> simp [hempty, hfree.1]
      · exact absurd hs (by simp)

end Step

theorem inLogOrder_reachable {s : State} (h : system.ReachableBy InOrder s) : InLogOrder s := by
  refine h.invariant (I := InLogOrder) ?_ fun s a s' hord hok hs => inLogOrder_step hord hok hs
  rintro s ⟨logEnd, rfl⟩
  exact ⟨.nil, by simp, by simp, by simp⟩

/--
**The lag queue drains**, in every run in which the writers come to `onAppend` in the
order of their appends and the log is replaced only when the queue is empty: behind every
acknowledgement, an entry that is left is of the current log and has not been
acknowledged. When everything is acknowledged, nothing is left.
-/
theorem lag_queue_drains {s s' : State} (h : system.ReachableBy InOrder s) {offset now : Nat}
    (hs : system.step s (.ack offset now) = some s') :
    (∀ r ∈ s'.queue.pending, r.log = s'.log ∧ offset < r.offset)
      ∧ (s'.logEnd ≤ offset → s'.queue.pending = []) := by
  have hord := inLogOrder_reachable h
  obtain rfl := Option.some.inj hs
  have hleft : ∀ r ∈ (s.queue.noteAck offset now).pending, r.log = s.log ∧ offset < r.offset :=
    fun r hr => ⟨(hord.current r (mem_noteAck hr)).1, lt_of_mem_noteAck hord.sorted hr⟩
  refine ⟨hleft, fun hall => List.eq_nil_iff_forall_not_mem.mpr fun r hr => ?_⟩
  have hfar := (hleft r hr).2
  have hin := (hord.current r (mem_noteAck hr)).2
  dsimp only at hall
  omega

/-- Two writers in order, an acknowledgement of both, a compaction, and another writer. -/
def inOrder : List Act :=
  [.register, .append 9, .append 9, .onAppend 10 1, .onAppend 20 1, .leave, .leave, .ack 20 5,
    .compact 8, .append 3, .onAppend 12 7, .append 7, .onAppend 20 8]

theorem lag_queue_drains_inOrder :
    ∃ s s' : State,
      system.ReachableBy InOrder s ∧ s.queue.pending.map PendingRecord.offset = [12, 20]
      ∧ system.step s (.ack 12 9) = some s' ∧ s'.queue.pending.map PendingRecord.offset = [20]
      ∧ ∀ r ∈ s'.queue.pending, r.log = s'.log ∧ 12 < r.offset := by
  obtain ⟨s, s', hreach, hs, hbefore, hafter⟩ := System.exists_reachableBy_some
    (g := fun s => system.step s (.ack 12 9))
    (p := fun s s' => s.queue.pending.map PendingRecord.offset = [12, 20]
      ∧ s'.queue.pending.map PendingRecord.offset = [20])
    (show system.ReachableBy InOrder { logEnd := 0 } from .init ⟨0, rfl⟩) inOrder (by decide)
    (by decide)
  exact ⟨s, s', hreach, hbefore, hs, hafter, (lag_queue_drains hreach hs).1⟩

/-- The second writer comes to `onAppend` first. -/
def outOfOrder : List Act := [.register, .append 9, .append 9, .onAppend 20 1, .onAppend 10 1]

/-- The log is replaced while a record has not been acknowledged. -/
def replaced : List Act := [.register, .append 99, .onAppend 100 1, .leave, .compact 8, .append 3,
  .onAppend 12 7]

/-- **An entry stays behind** whose offset has been acknowledged, and one whose log is gone. -/
theorem lag_queue_blocked :
    (∃ s s' : State, system.Reachable s ∧ system.step s (.ack 10 5) = some s'
      ∧ ∃ r ∈ s'.queue.pending, r.log = s'.log ∧ r.offset ≤ 10)
    ∧ ∃ s s' : State, system.Reachable s ∧ system.step s (.ack 12 9) = some s'
      ∧ (∃ r ∈ s'.queue.pending, r.log ≠ s'.log)
      ∧ ∃ r ∈ s'.queue.pending, r.log = s'.log ∧ r.offset ≤ 12 := by
  constructor
  · obtain ⟨s, s', hreach, hs, hleft⟩ := System.exists_reachableBy_some
      (g := fun s => system.step s (.ack 10 5))
      (p := fun _ s' => ∃ r ∈ s'.queue.pending, r.log = s'.log ∧ r.offset ≤ 10)
      (show system.Reachable { logEnd := 0 } from .init ⟨0, rfl⟩) outOfOrder (by decide) (by decide)
    exact ⟨s, s', hreach, hs, hleft⟩
  · obtain ⟨s, s', hreach, hs, hleft⟩ := System.exists_reachableBy_some
      (g := fun s => system.step s (.ack 12 9))
      (p := fun _ s' => (∃ r ∈ s'.queue.pending, r.log ≠ s'.log)
        ∧ ∃ r ∈ s'.queue.pending, r.log = s'.log ∧ r.offset ≤ 12)
      (show system.Reachable { logEnd := 0 } from .init ⟨0, rfl⟩) replaced (by decide) (by decide)
    exact ⟨s, s', hreach, hs, hleft⟩

end Lag

end KvStore.Repl
