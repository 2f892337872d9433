import KvStore.Proof.Reading

/-!
# Two engines, the same answers

What a peer is owed is the replies to the lines of its stream, up to the one that
quits. A thread that serves one connection writes them one after another. A client of
the event loop follows a reader of lines, which is on the way to the same replies: what
has been written is the beginning of what the reader has said, and that is the beginning
of what it is going to say.

The event loop drops a client that does not read; but pausing comes first, and a client
that is paused is given at most one reply over the limit. So with replies of a reasonable
size only the peer itself can end a connection early.
-/

namespace KvStore.Net.EventLoop

open Lib Wal
open Repl (ascii newline)

variable {σ : Type} {handle : Handler σ}

/-! ## What the peer is owed -/

/-- What has been said is not taken back. -/
theorem said_serve (t : σ × Bytes) (input : Bytes) :
    t.2 <+: ((rules handle).serve t input).state.2 :=
  LineRules.grows_serve (L := fun t₁ t₂ : σ × Bytes => t₁.2 <+: t₂.2)
    (fun _ => List.prefix_rfl) (fun _ _ _ => List.IsPrefix.trans)
    (fun _ _ => List.prefix_append _ _) (fun _ => List.prefix_append _ _) t input

theorem said_verdict (t : σ × Bytes) (stream : Bytes) :
    t.2 <+: ((rules handle).verdict t stream).2 :=
  LineRules.grows_verdict (L := fun t₁ t₂ : σ × Bytes => t₁.2 <+: t₂.2)
    (fun _ => List.prefix_rfl) (fun _ _ _ => List.IsPrefix.trans)
    (fun _ _ => List.prefix_append _ _) (fun _ => List.prefix_append _ _) t stream

section Owed

variable {session : σ} {pieces : List Bytes} {more : Bytes} {c : Client σ}
  (hlens : ∀ piece ∈ pieces, piece.length ≤ kReadChunk)
  (hshort : ShortLines newline kMaxLineLength (pieces.flatten ++ more))
  (h : Follows handle (fed handle session pieces) more c)

include hlens hshort h

/-- Nothing is ever written but the beginning of the answer. -/
theorem written_front : c.written <+: answer handle session (pieces.flatten ++ more) := by
  have hsaid : c.written ++ c.unsent <+: (fed handle session pieces).state.2 := by
    cases hclosing : c.closeAfterFlush with
    | true =>
        have hstate := congrArg Prod.snd (h.closing hclosing).1
        exact hstate ▸ List.prefix_rfl
    | false =>
        rw [h.serving hclosing]
        exact said_serve (c.session, c.written ++ c.unsent) _
  have htrack := (LineRules.onTrack_start (R := rules handle) (t := (session, []))
    (LineRules.neverBarelyTooLong_of_shortLines hshort)).feeds hlens
  have hgoal := verdict_of_shortLines handle session [] hshort
  rw [List.nil_append] at hgoal
  rw [← hgoal]
  refine (List.prefix_append _ _).trans (hsaid.trans ?_)
  cases hstopped : (fed handle session pieces).stopped with
  | true =>
      have hstate := congrArg Prod.snd (htrack.stopped hstopped)
      exact hstate ▸ List.prefix_rfl
  | false =>
      obtain ⟨-, -, -, hverdict⟩ := htrack.waiting hstopped
      rw [← hverdict]
      exact said_verdict _ _

/-- A client that is about to be closed, and has sent everything, has been answered. -/
theorem written_all (hclosing : c.closeAfterFlush = true) (hsent : c.unsent = []) :
    c.written = answer handle session (pieces.flatten ++ more) := by
  obtain ⟨hstate, hdone⟩ := h.closing hclosing
  have hverdict :=
    LineRules.feeds_eq_verdict hlens (LineRules.neverBarelyTooLong_of_shortLines hshort) hdone
  have hgoal := verdict_of_shortLines handle session [] hshort
  rw [hsent, List.append_nil] at hstate
  rw [List.nil_append] at hgoal
  rw [← hgoal, ← hverdict]
  exact (congrArg Prod.snd hstate).symm

end Owed

/-! ## Nobody is dropped for reading slowly -/

/-- The errors of the peer: it is gone, or a call fails. -/
def Act.Orderly (a : Act) : Prop :=
  .failed ∉ a.calls.writes ∧ .failed ∉ a.calls.reads ∧ .failed ∉ a.calls.writesAfter
    ∧ ¬ (a.event.closed = true ∧ a.event.readable = false)

/-- Between pausing and dropping there is room for one reply. -/
def kReplyBytes : Nat := kMaxOutputBytes - kPauseReadingAboveBytes

theorem pause_add_reply : kPauseReadingAboveBytes + kReplyBytes ≤ kMaxOutputBytes := by decide

/-- Without an error a client is closed when it has everything. -/
theorem closed_finished (hreply : ∀ s line, (handle s line).text.length ≤ kReplyBytes)
    {session : σ} {stream : Bytes} {s s' : State σ} {a : Act}
    (h : (system handle session stream).Reachable s) (hs : step handle s a = some s')
    (hclosed : s'.closed = true) (horderly : a.Orderly) :
    s'.client.closeAfterFlush = true ∧ s'.client.unsent = [] := by
  have hrefusal : (ascii "-ERR line too long\n").length ≤ kReplyBytes := by decide
  obtain ⟨hattended, hbacklog, -⟩ := backlog_reachable hreply hrefusal h
  unfold step at hs
  split at hs
  · rename_i hguard
    cases hs
    have ht := turned handle s.client a.event a.calls
    dsimp only at hclosed ⊢
    generalize handleClient handle s.client a.event a.calls = r at ht hclosed
    cases ht with
    | writeFailed hflush =>
        obtain ⟨-, herror⟩ := backlog_flush hreply hrefusal hbacklog hflush
        exact absurd ((herror pause_add_reply).1 rfl) horderly.1
    -- a client that is read from is not paused, so it has room for a reply
    | @readFailed c₁ c' hw hr hread =>
        have hgo := reading_of_readable hattended hguard.1 hguard.2 hr
        have hgo₁ := (onlyBytesSent_writable hgo hw).paused.trans hgo
        have hbacklog₁ : Backlog kReplyBytes c₁ := by
          rcases hw with ⟨-, rfl⟩ | ⟨-, hflush⟩
          · exact hbacklog
          · exact (backlog_flush hreply hrefusal hbacklog hflush).1
        obtain ⟨-, herror⟩ := backlog_onReadable hreply hrefusal hbacklog₁ hgo₁ hread
        exact ((herror pause_add_reply).1 rfl).elim (absurd · horderly.2.1)
          (absurd · horderly.2.2.1)
    | hungUp _ hgone => exact absurd hgone horderly.2.2.2
    | finished _ _ hdone => exact hdone
    | kept => exact absurd hclosed (by simp)
  · exact absurd hs (by simp)

/--
**The two engines give the same answers.** Whatever pieces the stream is read in by the
one and by the other, and whatever the socket takes at a time, the event loop has at
no time written anything but the beginning of what the thread of the connection
writes; and it has written all of it when it closes the connection, unless the peer is
gone or a call has failed.
-/
theorem engines_agree (hreply : ∀ s line, (handle s line).text.length ≤ 7 * 1024 * 1024)
    {session : σ} {stream : Bytes} (hshort : ShortLines newline kMaxLineLength stream)
    {ws : List (List SysWrite)} (hws : ∀ w ∈ ws, .failed ∉ w) {turns : List Turn}
    (hturns : ∀ t ∈ turns, t ≠ .shuttingDown ∧ t ≠ .error)
    (hstream : Connection.arriving turns = stream) {s : State σ}
    (h : (system handle session stream).Reachable s) :
    s.client.written <+: (Connection.run handle { session := session } ws turns).written
      ∧ ∀ a s', step handle s a = some s' → s'.closed = true → a.Orderly →
        s'.client.written = (Connection.run handle { session := session } ws turns).written := by
  subst hstream
  have hwritten :=
    @Connection.run_written σ handle { session := session } ws hws turns hturns hshort
  rw [List.nil_append, List.nil_append] at hwritten
  rw [hwritten]
  have hfront {s : State σ} (h : (system handle session (Connection.arriving turns)).Reachable s) :
      s.client.written <+: answer handle session (Connection.arriving turns)
        ∧ (s.client.closeAfterFlush = true → s.client.unsent = [] →
          s.client.written = answer handle session (Connection.arriving turns)) := by
    obtain ⟨pieces, more, hstream, hlens, hfollows⟩ := follows_reachable h
    rw [← hstream] at hshort ⊢
    exact ⟨written_front hlens hshort hfollows, written_all hlens hshort hfollows⟩
  refine ⟨(hfront h).1, fun a s' hs hclosed horderly => ?_⟩
  obtain ⟨hclosing, hsent⟩ := closed_finished hreply h hs hclosed horderly
  exact (hfront (h.tail trivial hs)).2 hclosing hsent

/-- How a thread might read a line, a `QUIT`, and what comes behind it. -/
def quitting : List Turn :=
  [.data (ascii "a"), .timeout, .data (ascii "\nQUIT\nb\n"), .closed]

/-- How the event loop might, up to the last flush. -/
def quittingEvents : List Act :=
  [{ event := { readable := true }
     calls := { reads := [.moved 2], writesAfter := [.moved 0, .wouldBlock] } },
    { event := { readable := true }
      calls := { reads := [.interrupted, .moved 4], writesAfter := [.wouldBlock] } }]

theorem engines_agree_quit :
    ∃ s s' : State Unit, ∃ a : Act, (system echo () (ascii "a\nQUIT\nb\n")).Reachable s
      ∧ s.client.written = ascii "a" ∧ step echo s a = some s' ∧ s'.closed = true
      ∧ s'.client.written
        = (Connection.run echo { session := () }
          [[.accepted 1, .interrupted]] quitting).written := by
  let last : Act := { event := { writable := true }, calls := { writes := [.moved 3, .moved 3] } }
  obtain ⟨s, s', hreach, hs, hwritten, hclosed⟩ := System.exists_reachableBy_some
    (g := fun s => step echo s last)
    (p := fun s s' => s.client.written = ascii "a" ∧ s'.closed = true)
    (show (system echo () (ascii "a\nQUIT\nb\n")).Reachable _ from .init rfl) quittingEvents
    (by decide +kernel) (by decide +kernel)
  have hbound : ∀ s line, (echo s line).text.length ≤ 7 * 1024 * 1024 := by
    intro s line
    have hle : (line.take 8).length ≤ 8 := List.length_take_le ..
    have hone : (ascii "\n").length = 1 := by decide
    show (line.take 8 ++ ascii "\n").length ≤ _
    rw [List.length_append, hone]
    omega
  have hshort : ShortLines newline kMaxLineLength (ascii "a\nQUIT\nb\n") := by
    unfold ShortLines
    decide +kernel
  obtain ⟨-, hall⟩ := @engines_agree Unit echo hbound () _ hshort [[.accepted 1, .interrupted]]
    (by decide) quitting (by decide +kernel) (by decide +kernel) s hreach
  have horderly : last.Orderly := by
    unfold Act.Orderly
    decide
  exact ⟨s, s', last, hreach, hwritten, hs, hclosed, hall last s' hs hclosed horderly⟩

end KvStore.Net.EventLoop
