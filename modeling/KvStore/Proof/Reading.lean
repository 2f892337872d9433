import KvStore.Proof.Buffers

/-!
# The event loop reads lines

What the event loop does with the input of a client is spread over many events, and
over what the peer takes of the output in the meantime: lines wait in the buffer while
reading is paused, and are handled when the output is gone. Seen from the input it is a
reader of lines that is given one piece after another. The reader is ahead of the
client: it has handed over all lines there are, where the client may have been paused.
-/

namespace KvStore.Net.EventLoop

open Lib
open Repl (ascii newline)

variable {σ : Type} {handle : Handler σ} {c c' : Client σ} {f : LineReader (σ × Bytes) UInt8}
  {more : Bytes}

/-- A client and the reader it follows, with `more` that neither of them has read. -/
structure Follows (handle : Handler σ) (f : LineReader (σ × Bytes) UInt8) (more : Bytes)
    (c : Client σ) : Prop where
  incoming : c.incoming = more
  /-- A client is about to be closed when its reader has stopped, or at the end of the input. -/
  closing : c.closeAfterFlush = true →
    f.state = (c.session, c.written ++ c.unsent) ∧ (f.stopped = true ∨ more = [])
  /-- What is in the buffer the reader has dealt with. -/
  serving : c.closeAfterFlush = false →
    f = (rules handle).serve (c.session, c.written ++ c.unsent) c.inbuf

theorem follows_init (handle : Handler σ) (session : σ) (stream : Bytes) :
    Follows handle { state := (session, []) } stream { session := session, incoming := stream } :=
  ⟨rfl, fun hno => absurd hno (by simp), fun _ => rfl⟩

theorem Follows.onlyBytesSent (h : Follows handle f more c) (hu : OnlyBytesSent c c') :
    Follows handle f more c' := by
  refine ⟨hu.incoming.trans h.incoming, ?_, ?_⟩
  · rw [hu.closing, hu.session, hu.bytes]
    exact h.closing
  · rw [hu.closing, hu.session, hu.bytes, hu.inbuf]
    exact h.serving

/-- The client comes to a line that its reader has handed over. -/
theorem serve_handled {line rest : Bytes} (hcut : cutLine newline c.inbuf = some (line, rest)) :
    (rules handle).serve (c.session, c.written ++ c.unsent) c.inbuf
      = if (handle c.session (chomp line)).quit
        then { state := ((handle c.session (chomp line)).session, c.written
            ++ (c.handled (handle c.session (chomp line)) rest).unsent), stopped := true }
        else (rules handle).serve ((handle c.session (chomp line)).session, c.written
            ++ (c.handled (handle c.session (chomp line)) rest).unsent) rest := by
  rw [c.unsent_handled, ← List.append_assoc]
  exact LineRules.serve_of_cutLine hcut

theorem follows_handled (h : Follows handle f more c) (hopen : c.closeAfterFlush = false)
    {line rest : Bytes} (hcut : cutLine newline c.inbuf = some (line, rest))
    (hquit : (handle c.session (chomp line)).quit = false) :
    Follows handle f more (c.handled (handle c.session (chomp line)) rest) := by
  refine ⟨h.incoming, fun hno => absurd (hopen.symm.trans hno) (by simp), fun _ => ?_⟩
  rw [h.serving hopen, serve_handled hcut, hquit]
  rfl

theorem follows_processed (hp : Processed handle c c') (h : Follows handle f more c) :
    Follows handle f more c' := by
  induction hp with
  | closing => exact h
  | waiting => exact h
  | @tooLong c hopen hnone hlen =>
      have hf := (h.serving hopen).trans (LineRules.serve_long hnone hlen)
      refine ⟨h.incoming, fun _ => ?_, fun hno => absurd hno (by simp)⟩
      rw [hf]
      refine ⟨?_, .inl rfl⟩
      show (c.session, c.written ++ c.unsent ++ _) = (c.session, c.written ++ (c.push _).unsent)
      rw [c.unsent_push, List.append_assoc]
  | quit hopen hcut hquit =>
      have hf := (h.serving hopen).trans ((serve_handled hcut).trans (if_pos hquit))
      refine ⟨h.incoming, fun _ => ?_, fun hno => absurd hno (by simp)⟩
      rw [hf]
      exact ⟨rfl, .inl rfl⟩
  | paused hopen hcut hquit =>
      have hnext := follows_handled h hopen hcut hquit
      exact ⟨hnext.incoming, hnext.closing, hnext.serving⟩
  | next hopen hcut hquit _ _ ih => exact ih (follows_handled h hopen hcut hquit)

theorem follows_flush (h : Follows handle f more c) {calls : List Call} {ok : Bool}
    (hflush : c.flush handle calls = (c', ok)) : Follows handle f more c' := by
  refine flush_keeps (P := Follows handle f more) Follows.onlyBytesSent ?_ h hflush
  intro c₁ c₂ h₁ _ hsent hprocessed
  refine follows_processed hprocessed ⟨h₁.incoming, ?_, ?_⟩
  · have hclosing := h₁.closing
    rw [hsent] at hclosing
    exact hclosing
  · have hserving := h₁.serving
    rw [hsent] at hserving
    exact hserving

/-! ## Input -/

/-- A client that reads has less than a line, and not too much of it. -/
structure Waiting (c : Client σ) : Prop where
  reading : c.readingPaused = false
  lines : c.closeAfterFlush = false →
    cutLine newline c.inbuf = none ∧ c.inbuf.length ≤ kMaxLineLength

theorem Waiting.onlyBytesSent (h : Waiting c) (hu : OnlyBytesSent c c') : Waiting c' := by
  refine ⟨hu.paused.trans h.reading, ?_⟩
  rw [hu.closing, hu.inbuf]
  exact h.lines

/-- It has nothing to do. -/
theorem Waiting.eq_of_processed (h : Waiting c) (hp : Processed handle c c') : c' = c := by
  cases hp with
  | closing => rfl
  | waiting => rfl
  | tooLong hopen _ hlen => exact absurd (h.lines hopen).2 (Nat.not_le.mpr hlen)
  | quit hopen hcut => rw [(h.lines hopen).1] at hcut; exact absurd hcut (by simp)
  | paused hopen hcut => rw [(h.lines hopen).1] at hcut; exact absurd hcut (by simp)
  | next hopen hcut => rw [(h.lines hopen).1] at hcut; exact absurd hcut (by simp)

/-- The reader of a client that waits has no more than the client. -/
theorem Follows.state_eq (h : Follows handle f more c) (hw : Waiting c) :
    f.state = (c.session, c.written ++ c.unsent) := by
  cases hclosing : c.closeAfterFlush with
  | true => exact (h.closing hclosing).1
  | false =>
      obtain ⟨hnone, hlen⟩ := hw.lines hclosing
      rw [h.serving hclosing, LineRules.serve_short hnone hlen]

/-- What a turn comes to for the reader: nothing, or one piece more. -/
def Reads (handle : Handler σ) (f : LineReader (σ × Bytes) UInt8) (more : Bytes) (c' : Client σ) :
    Prop :=
  Follows handle f more c' ∨ ∃ piece rest, piece ≠ [] ∧ piece.length ≤ kReadChunk
    ∧ more = piece ++ rest ∧ Follows handle ((rules handle).feed f piece) rest c'

theorem Reads.imp {c₁ c₂ : Client σ} (h : Reads handle f more c₁)
    (himp : ∀ {f more}, Follows handle f more c₁ → Follows handle f more c₂) :
    Reads handle f more c₂ := by
  rcases h with hsame | ⟨piece, rest, hne, hlen, hmore, hnext⟩
  · exact .inl (himp hsame)
  · exact .inr ⟨piece, rest, hne, hlen, hmore, himp hnext⟩

theorem reads_read (h : Follows handle f more c) (hw : Waiting c) {calls : List Call}
    {r : Client σ × Bool × Bool} (hr : Read c calls r) : Reads handle f more r.1 := by
  cases hr with
  | nothing => exact .inl h
  | ended => exact .inl h
  | @chunk bytes rest hgo hbytes hlen hne =>
      have hmore : more = bytes ++ rest := h.incoming.symm.trans hbytes
      refine .inr ⟨bytes, rest, hne, hlen, hmore, rfl, fun hclosing => ?_, fun hopen => ?_⟩
      · -- nobody looks at what comes now, and the reader has stopped or there is nothing
        obtain ⟨hstate, hend⟩ := h.closing hclosing
        have hstopped : f.stopped = true :=
          hend.resolve_right fun hnil => hne (List.append_eq_nil_iff.mp (hmore.symm.trans hnil)).1
        rw [LineRules.feed_stopped hstopped]
        exact ⟨hstate, .inl hstopped⟩
      · -- client and reader have kept the same
        obtain ⟨hnone, hshort⟩ := hw.lines hopen
        rw [h.serving hopen, LineRules.serve_short hnone hshort]
        rfl

theorem reads_onReadable (h : Follows handle f more c) (hw : Waiting c) {calls : Calls} {ok : Bool}
    (hread : onReadable handle c calls = (c', ok)) : Reads handle f more c' := by
  have hinput := input_effect handle c calls
  rw [hread] at hinput
  cases hinput with
  | readFailed => exact .inl h
  | flushFailed hr hflush =>
      exact (reads_read h hw hr).imp fun hf =>
        follows_flush (follows_processed (processed handle _) hf) hflush
  | served hr hflush =>
      exact (reads_read h hw hr).imp fun hf =>
        follows_flush (follows_processed (processed handle _) hf) hflush
  | @ended c₁ hgo hend hflush =>
      -- the beginning of a line that was never ended is dropped by both
      rw [hw.eq_of_processed (processed handle c)] at hflush
      have hsame := onlyBytesSent_flush hgo hflush
      have hnext := h.onlyBytesSent hsame
      have hmore : more = [] := h.incoming.symm.trans hend
      refine .inl ⟨hnext.incoming, fun _ => ⟨?_, .inr hmore⟩, fun hno => absurd hno (by simp)⟩
      exact hnext.state_eq (hw.onlyBytesSent hsame)

theorem reads_turned {event : ReadyEvent} {calls : Calls} {r : Client σ × Bool}
    (h : Follows handle f more c) (hwait : event.readable = true → Waiting c)
    (ht : Turned handle c event calls r) : Reads handle f more r.1 := by
  refine ht.keeps (P := Reads handle f more) (.inl h) (fun hflush => .inl (follows_flush h hflush))
    ?_ ?_
  · intro c₁ c' ok _ hw hr hread
    have hwaiting := (hwait hr).onlyBytesSent (onlyBytesSent_writable (hwait hr).reading hw)
    have hfollows : Follows handle f more c₁ := by
      rcases hw with ⟨-, rfl⟩ | ⟨-, hflush⟩
      · exact h
      · exact follows_flush h hflush
    exact reads_onReadable hfollows hwaiting hread
  · intro c' h'
    exact h'.imp fun hf => hf.onlyBytesSent (onlyBytesSent_updateInterest c')

/-! ## Every run -/

/-- Between two events a client that is read from waits. -/
structure Ready (s : State σ) : Prop where
  attended : OpenMeansCalm s
  intake : Intake False s.client

theorem ready_reachable {session : σ} {stream : Bytes} {s : State σ}
    (h : (system handle session stream).Reachable s) : Ready s := by
  have hok : ∀ (s : State σ) (a : Act), True → False → a.event.readable = true →
      s.client.closeAfterFlush = false := fun _ _ _ hno => hno.elim
  obtain ⟨hattended, hintake⟩ := intake_reachable hok h
  exact ⟨hattended, hintake⟩

theorem Ready.waiting {s : State σ} (h : Ready s) (hopen : s.closed = false)
    (hgo : s.client.readingPaused = false) : Waiting s.client :=
  ⟨hgo, fun hserving => ⟨(h.attended hopen).1.lines hgo hserving, h.intake.room hgo hserving⟩⟩

/-- **A step of the event loop is a step of the reader, or none.** -/
theorem reads_step {s s' : State σ} {a : Act} (hready : Ready s)
    (h : Follows handle f more s.client)
    (hs : step handle s a = some s') : Reads handle f more s'.client := by
  unfold step at hs
  split at hs
  · rename_i hguard
    cases hs
    refine reads_turned h (fun hr => ?_) (turned handle s.client a.event a.calls)
    exact hready.waiting hguard.1 (reading_of_readable hready.attended hguard.1 hguard.2 hr)
  · exact absurd hs (by simp)

/-- The reader of a new client, given some pieces. -/
def fed (handle : Handler σ) (session : σ) (pieces : List Bytes) : LineReader (σ × Bytes) UInt8 :=
  pieces.foldl (rules handle).feed { state := (session, []) }

/-- **Every client follows a reader** that has been given what was read, in pieces. -/
theorem follows_reachable {session : σ} {stream : Bytes} {s : State σ}
    (h : (system handle session stream).Reachable s) :
    ∃ pieces more, pieces.flatten ++ more = stream ∧ (∀ piece ∈ pieces, piece.length ≤ kReadChunk)
      ∧ Follows handle (fed handle session pieces) more s.client := by
  induction h with
  | init h0 =>
      cases h0
      exact ⟨[], stream, rfl, by simp, follows_init handle session stream⟩
  | @tail s s' a hreach _ hs ih =>
      obtain ⟨pieces, more, hstream, hlens, hfollows⟩ := ih
      rcases reads_step (ready_reachable hreach) hfollows hs with hsame | hmore
      · exact ⟨pieces, more, hstream, hlens, hsame⟩
      · obtain ⟨piece, rest, -, hlen, rfl, hnext⟩ := hmore
        refine ⟨pieces ++ [piece], rest, ?_, ?_, ?_⟩
        · rw [← hstream]
          simp
        · intro p hp
          rcases List.mem_append.mp hp with hp | hp
          · exact hlens p hp
          · rw [List.mem_singleton.mp hp]
            exact hlen
        · unfold fed
          rw [List.foldl_append]
          exact hnext

end KvStore.Net.EventLoop
